import Mathlib.Data.List.Infix
import AiGramLib.CopyBot
import AiGramLib.Library.Machine

/-!
# `search` under every schedule

The state machine of `ChatBotsManager.search`: the calls, the operations on the serial
`searchQueue` with the guard, the filter and the dispatch as steps of their own, and the blocks
on the main queue. An operation that has been cancelled before its start runs nothing, so
`cancelAllOperations` empties the queue of operations not yet started. A completion is the last
thing a main block runs, so a call made from inside one is a call made right after the block.

`Text` stands for `String` under its `==`. `calls` and `answers` record the history of a run;
no code reads them.
-/

namespace AiGramLib

/-- The operations of the standard library on the texts of a search. -/
structure StringOperations (Text : Type) where
  /-- A string of a bot's description, as a text. -/
  text : String → Text
  lowercased : Text → Text
  isEmpty : Text → Bool
  contains : Text → Text → Bool

/-- The operations on texts of ASCII characters. -/
def StringOperations.ascii : StringOperations String where
  text := id
  lowercased text := String.ofList (text.toList.map Char.toLower)
  isEmpty := String.isEmpty
  contains text part := text.toList.tails.any fun rest => part.toList.isPrefixOf rest

variable {Text : Type}

/-- Whether a bot is found by a search for this text. -/
def ChatBot.isAcceptedWithText (strings : StringOperations Text) (bot : ChatBot) (text : Text) :
    Bool :=
  let text := strings.lowercased text
  if strings.isEmpty text then true
  else
    strings.contains (strings.lowercased (strings.text bot.title)) text ||
    strings.contains (strings.lowercased (strings.text bot.shortDescription)) text ||
    strings.contains (strings.lowercased (strings.text bot.fullDescription)) text

namespace Search

open Transition

/-- What a block operation has captured: its place in the order of calls, which stands for the
completion, and the text. -/
structure Request (Text : Type) where
  call : Nat
  text : Text
  deriving DecidableEq

/-- Where the running operation stands; each stage is named after what it does next. -/
inductive Stage where
  /-- `guard self.lastSearchText == text` -/
  | guard
  /-- `self.bots.filter` -/
  | filter
  /-- `DispatchQueue.main.async`, with the result. -/
  | dispatch (result : List ChatBot)
  deriving DecidableEq

structure Running (Text : Type) where
  request : Request Text
  stage : Stage
  deriving DecidableEq

/-- The main block of an operation. -/
structure Block (Text : Type) where
  request : Request Text
  result : List ChatBot
  deriving DecidableEq

/-- One invocation of a completion, with the text of the most recent call at that time. -/
structure Answer (Text : Type) where
  block : Block Text
  latest : Option Text

structure State (Text : Type) where
  lastSearchText : Option Text
  bots : List ChatBot
  /-- The operations on `searchQueue` that have not started, the oldest first. -/
  searchQueue : List (Request Text)
  running : Option (Running Text)
  /-- The blocks on the main queue, the oldest first. -/
  main : List (Block Text)
  calls : List Text
  answers : List (Answer Text)

/-- The state before the first call, with the bots that were loaded at launch. -/
def State.initial (bots : List ChatBot) : State Text where
  lastSearchText := none
  bots
  searchQueue := []
  running := none
  main := []
  calls := []
  answers := []

/-- No operation is queued or running and no main block is pending. -/
def State.Quiescent (s : State Text) : Prop :=
  s.searchQueue = [] ∧ s.running = none ∧ s.main = []

instance [DecidableEq Text] (s : State Text) : Decidable s.Quiescent :=
  inferInstanceAs (Decidable (_ ∧ _))

inductive Action (Text : Type) where
  /-- A call `search(text, completion:)`. -/
  | search (text : Text)
  /-- The main block of a `copyBot` runs. -/
  | append (newBot : ChatBot)
  /-- The next operation on `searchQueue` starts. -/
  | start
  /-- The running operation makes its next step. -/
  | proceed
  /-- The next main block of a search runs. -/
  | runBlock

variable [DecidableEq Text]

/-- The body of `search`. -/
def search (s : State Text) (text : Text) : State Text :=
  let s' :=
    if s.lastSearchText ≠ some text then { s with lastSearchText := none, searchQueue := [] }
    else s
  { s' with
    lastSearchText := some text
    searchQueue := s'.searchQueue ++ [⟨s.calls.length, text⟩]
    calls := s.calls ++ [text] }

/-- The start of the oldest queued operation, if none is running. -/
def start (s : State Text) : Option (State Text) :=
  match s.running, s.searchQueue with
  | none, request :: rest =>
      some { s with searchQueue := rest, running := some ⟨request, .guard⟩ }
  | _, _ => none

/-- A step of the running operation. -/
def proceed (strings : StringOperations Text) (s : State Text) : Option (State Text) := do
  let running ← s.running
  let request := running.request
  match running.stage with
  | .guard =>
      if s.lastSearchText = some request.text then
        pure { s with running := some ⟨request, .filter⟩ }
      else pure { s with running := none }
  | .filter =>
      let result := s.bots.filter fun bot => bot.isAcceptedWithText strings request.text
      pure { s with running := some ⟨request, .dispatch result⟩ }
  | .dispatch result => pure { s with running := none, main := s.main ++ [⟨request, result⟩] }

/-- The main block of an operation: it invokes the completion. -/
def runBlock (s : State Text) : Option (State Text) :=
  match s.main with
  | [] => none
  | block :: rest =>
      some { s with main := rest, answers := s.answers ++ [⟨block, s.calls.getLast?⟩] }

/-- All interleavings of calls, operations and main blocks. -/
def machine (strings : StringOperations Text) (bots : List ChatBot) :
    Machine (State Text) (Action Text) where
  start := .initial bots
  next s
    | .search text => some (search s text)
    | .append newBot => some { s with bots := appendBot s.bots newBot }
    | .start => start s
    | .proceed => proceed strings s
    | .runBlock => runBlock s

/-- The steps from a state, each with what has been checked before it. -/
inductive Step (strings : StringOperations Text) (s : State Text) :
    Action Text → State Text → Prop where
  | searched (text : Text) : Step strings s (.search text) (search s text)
  | appended (newBot : ChatBot) :
      Step strings s (.append newBot) { s with bots := appendBot s.bots newBot }
  | started (request : Request Text) (rest : List (Request Text)) (hrunning : s.running = none)
      (hqueue : s.searchQueue = request :: rest) :
      Step strings s .start { s with searchQueue := rest, running := some ⟨request, .guard⟩ }
  | passed (request : Request Text) (hrunning : s.running = some ⟨request, .guard⟩)
      (hmatch : s.lastSearchText = some request.text) :
      Step strings s .proceed { s with running := some ⟨request, .filter⟩ }
  | dropped (request : Request Text) (hrunning : s.running = some ⟨request, .guard⟩)
      (hmatch : s.lastSearchText ≠ some request.text) :
      Step strings s .proceed { s with running := none }
  | filtered (request : Request Text) (hrunning : s.running = some ⟨request, .filter⟩) :
      Step strings s .proceed { s with
        running := some ⟨request, .dispatch
          (s.bots.filter fun bot => bot.isAcceptedWithText strings request.text)⟩ }
  | dispatched (request : Request Text) (result : List ChatBot)
      (hrunning : s.running = some ⟨request, .dispatch result⟩) :
      Step strings s .proceed { s with running := none, main := s.main ++ [⟨request, result⟩] }
  | ran (block : Block Text) (rest : List (Block Text)) (hmain : s.main = block :: rest) :
      Step strings s .runBlock { s with
        main := rest, answers := s.answers ++ [⟨block, s.calls.getLast?⟩] }

/-- The machine makes no other steps. -/
theorem step_of_next {strings : StringOperations Text} {bots : List ChatBot} {s t : State Text}
    {action : Action Text} (h : (machine strings bots).next s action = some t) :
    Step strings s action t := by
  cases action with
  | search text =>
      cases h
      exact .searched text
  | append newBot =>
      cases h
      exact .appended newBot
  | start =>
      simp only [machine, start] at h
      split at h <;> cases h
      rename_i request rest hrunning hqueue
      exact .started request rest hrunning hqueue
  | proceed =>
      obtain ⟨⟨request, stage⟩, hrunning, h⟩ := Option.bind_eq_some_iff.mp h
      cases stage with
      | guard =>
          simp only [Option.pure_def] at h
          split at h <;> cases h
          · exact .passed request hrunning ‹_›
          · exact .dropped request hrunning ‹_›
      | filter =>
          cases h
          exact .filtered request hrunning
      | dispatch result =>
          cases h
          exact .dispatched request result hrunning
  | runBlock =>
      simp only [machine, runBlock] at h
      split at h <;> cases h
      rename_i block rest hmain
      exact .ran block rest hmain

end Search

end AiGramLib
