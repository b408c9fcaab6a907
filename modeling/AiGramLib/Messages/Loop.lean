import AiGramLib.CopyBot
import AiGramLib.Messages.Results

/-!
# The loop over the bots, one turn at a time

`AiGramLib.Messages.Machine` lets an operation of `queue` read `self.bots` and the stored enable
states in one step. In the code, the loop goes over a copy of `self.bots`, asks `isBotEnabled` anew
in each turn, and has the operations of the first bots running before it comes to the last ones;
meanwhile the main thread can switch bots and take up new ones. `atomic_reachable` says that this
is no different: every state is one of that machine, with the bots that are asked as those that
were read.

`asked` and the last three fields of a block record the history of a run, as in that machine.
-/

namespace AiGramLib.Messages.Loop

open Transition

variable {Message : Type}

/-- The request whose operation is running. -/
structure Running (Message : Type) where
  request : Request Message
  /-- `self.bots` and the stored states when the loop began. -/
  bots : List ChatBot
  botEnableStates : ChatBotId → Option Bool
  /-- The bots that the loop has not come to. -/
  remaining : List ChatBot
  asked : List ChatBot
  localQueue : LockedAppend.State ChatBot ChatBotResult

/-- The main block of a request. -/
structure Block (Message : Type) where
  request : Request Message
  results : List ChatBotResult
  bots : List ChatBot
  botEnableStates : ChatBotId → Option Bool
  asked : List ChatBot
  order : List ChatBot

structure Answer (Message : Type) where
  block : Block Message
  results : List ChatBotResult
  callsMade : Nat

structure State (Message : Type) where
  bots : List ChatBot
  /-- `EnabledBots` in `UserDefaults`. -/
  enabledBots : ChatBotId → Option Bool
  lastMessages : Option (List Message)
  queue : List (Request Message)
  running : Option (Running Message)
  main : List (Block Message)
  handled : Nat
  calls : List (Call Message)
  answers : List (Answer Message)

def State.initial (bots : List ChatBot) (enabledBots : ChatBotId → Option Bool) :
    State Message where
  bots
  enabledBots
  lastMessages := none
  queue := []
  running := none
  main := []
  handled := 0
  calls := []
  answers := []

/-- The messages of the requests that are not finished, the oldest first. -/
def State.pending (s : State Message) : List (List Message) :=
  s.main.map (fun block => block.request.messages) ++
    s.running.toList.map (fun running => running.request.messages) ++
    s.queue.map Request.messages

inductive Action (Message : Type) where
  /-- A call `handleMessages(messages, completion:)`. -/
  | handleMessages (messages : List Message)
  /-- A call of `enableBot` for a bot of this name. -/
  | enableBot (name : ChatBotId) (enabled : Bool)
  /-- The main block of a `copyBot` runs. -/
  | append (newBot : ChatBot)
  /-- The next operation starts. -/
  | start
  /-- The loop makes a turn. -/
  | turn
  /-- One step of the operation at a position of `localQueue`. -/
  | work (i : Nat)
  /-- `waitUntilAllOperationsAreFinished` returns, and the main block is dispatched. -/
  | finish
  /-- The next main block runs. -/
  | runBlock

def call (s : State Message) (messages : List Message) : State Message :=
  { s with
    lastMessages := some messages
    queue := s.queue ++ [⟨s.calls.length, messages⟩]
    calls := s.calls ++ [⟨messages, s.pending⟩] }

/-- The stored states after one of them has been set. -/
def setEnabled (states : ChatBotId → Option Bool) (name : ChatBotId) (enabled : Bool) :
    ChatBotId → Option Bool :=
  fun other => if other = name then some enabled else states other

def enableBot (s : State Message) (name : ChatBotId) (enabled : Bool) : State Message :=
  { s with enabledBots := setEnabled s.enabledBots name enabled }

def start (s : State Message) : Option (State Message) :=
  match s.running, s.queue with
  | none, request :: rest =>
      some { s with
        queue := rest
        running := some {
          request
          bots := s.bots
          botEnableStates := s.enabledBots
          remaining := s.bots
          asked := []
          localQueue := .spawn [] } }
  | _, _ => none

/-- `guard self.isBotEnabled(bot) else { continue }` and `localQueue.addOperation` -/
def turn (s : State Message) : Option (State Message) := do
  let running ← s.running
  match running.remaining with
  | [] => none
  | bot :: remaining =>
      if isBotEnabled s.enabledBots bot then
        pure { s with
          running := some { running with
            remaining
            asked := running.asked ++ [bot]
            localQueue := running.localQueue.addAll [bot] } }
      else pure { s with running := some { running with remaining } }

def work (process : ChatBot → List Message → ChatBotResult) (s : State Message) (i : Nat) :
    Option (State Message) := do
  let running ← s.running
  let localQueue ← LockedAppend.step (botBlock process running.request.messages)
    running.localQueue i
  pure { s with running := some { running with localQueue } }

def finish (s : State Message) : Option (State Message) := do
  let running ← s.running
  if running.remaining.isEmpty && running.localQueue.allFinished then
    pure { s with
      running := none
      main := s.main ++ [{
        request := running.request
        results := running.localQueue.shared
        bots := running.bots
        botEnableStates := running.botEnableStates
        asked := running.asked
        order := running.localQueue.order }] }
  else none

variable [DecidableEq Message]

def runBlock (s : State Message) : Option (State Message) :=
  match s.main with
  | [] => none
  | block :: rest =>
      if some block.request.messages = s.lastMessages then
        some { s with
          main := rest
          handled := s.handled + 1
          lastMessages := none
          answers := s.answers ++
            [⟨block, resultsWithAssistantHandling block.results, s.calls.length⟩] }
      else some { s with main := rest, handled := s.handled + 1 }

/-- All interleavings, with these bots and switches at first. -/
def machine (process : ChatBot → List Message → ChatBotResult) (bots : List ChatBot)
    (enabledBots : ChatBotId → Option Bool) : Machine (State Message) (Action Message) where
  start := .initial bots enabledBots
  next s
    | .handleMessages messages => some (call s messages)
    | .enableBot name enabled => some (enableBot s name enabled)
    | .append newBot => some { s with bots := appendBot s.bots newBot }
    | .start => start s
    | .turn => turn s
    | .work i => work process s i
    | .finish => finish s
    | .runBlock => runBlock s

/-- The steps from a state, each with what has been checked before it. -/
inductive Step (process : ChatBot → List Message → ChatBotResult) (s : State Message) :
    Action Message → State Message → Prop where
  | called (messages : List Message) : Step process s (.handleMessages messages) (call s messages)
  | switched (name : ChatBotId) (enabled : Bool) :
      Step process s (.enableBot name enabled) (enableBot s name enabled)
  | appended (newBot : ChatBot) :
      Step process s (.append newBot) { s with bots := appendBot s.bots newBot }
  | started (request : Request Message) (rest : List (Request Message))
      (hrunning : s.running = none) (hqueue : s.queue = request :: rest) :
      Step process s .start { s with
        queue := rest
        running := some {
          request
          bots := s.bots
          botEnableStates := s.enabledBots
          remaining := s.bots
          asked := []
          localQueue := .spawn [] } }
  | asked (running : Running Message) (bot : ChatBot) (remaining : List ChatBot)
      (hrunning : s.running = some running) (hremaining : running.remaining = bot :: remaining)
      (henabled : isBotEnabled s.enabledBots bot = true) :
      Step process s .turn { s with
        running := some { running with
          remaining
          asked := running.asked ++ [bot]
          localQueue := running.localQueue.addAll [bot] } }
  | passed (running : Running Message) (bot : ChatBot) (remaining : List ChatBot)
      (hrunning : s.running = some running) (hremaining : running.remaining = bot :: remaining)
      (hdisabled : isBotEnabled s.enabledBots bot = false) :
      Step process s .turn { s with running := some { running with remaining } }
  | worked (running : Running Message) (i : Nat)
      (localQueue : LockedAppend.State ChatBot ChatBotResult)
      (hrunning : s.running = some running)
      (hworked : LockedAppend.step (botBlock process running.request.messages)
        running.localQueue i = some localQueue) :
      Step process s (.work i) { s with running := some { running with localQueue } }
  | finished (running : Running Message) (hrunning : s.running = some running)
      (hremaining : running.remaining = []) (hfinished : running.localQueue.allFinished = true) :
      Step process s .finish { s with
        running := none
        main := s.main ++ [{
          request := running.request
          results := running.localQueue.shared
          bots := running.bots
          botEnableStates := running.botEnableStates
          asked := running.asked
          order := running.localQueue.order }] }
  | answered (block : Block Message) (rest : List (Block Message)) (hmain : s.main = block :: rest)
      (hmatch : some block.request.messages = s.lastMessages) :
      Step process s .runBlock { s with
        main := rest
        handled := s.handled + 1
        lastMessages := none
        answers := s.answers ++
          [⟨block, resultsWithAssistantHandling block.results, s.calls.length⟩] }
  | dropped (block : Block Message) (rest : List (Block Message)) (hmain : s.main = block :: rest)
      (hmatch : some block.request.messages ≠ s.lastMessages) :
      Step process s .runBlock { s with main := rest, handled := s.handled + 1 }

variable {process : ChatBot → List Message → ChatBotResult} {bots : List ChatBot}
  {enabledBots : ChatBotId → Option Bool} {s t : State Message} {action : Action Message}
  {more : List ChatBot}

/-- The machine makes no other steps. -/
theorem step_of_next (h : (machine process bots enabledBots).next s action = some t) :
    Step process s action t := by
  cases action with
  | handleMessages messages =>
      cases h
      exact .called messages
  | enableBot name enabled =>
      cases h
      exact .switched name enabled
  | append newBot =>
      cases h
      exact .appended newBot
  | start =>
      simp only [machine, start] at h
      split at h <;> cases h
      exact .started _ _ ‹_› ‹_›
  | turn =>
      obtain ⟨running, hrunning, h⟩ := Option.bind_eq_some_iff.mp h
      split at h
      · cases h
      · split at h <;> cases h
        · exact .asked running _ _ hrunning ‹_› ‹_›
        · exact .passed running _ _ hrunning ‹_› (Bool.eq_false_iff.mpr ‹_›)
  | work i =>
      obtain ⟨running, hrunning, h⟩ := Option.bind_eq_some_iff.mp h
      obtain ⟨localQueue, hworked, h⟩ := Option.bind_eq_some_iff.mp h
      cases h
      exact .worked running i localQueue hrunning hworked
  | finish =>
      obtain ⟨running, hrunning, h⟩ := Option.bind_eq_some_iff.mp h
      split at h <;> cases h
      rename_i hended
      obtain ⟨hremaining, hfinished⟩ := Bool.and_eq_true_iff.mp hended
      exact .finished running hrunning (List.isEmpty_iff.mp hremaining) hfinished
  | runBlock =>
      simp only [machine, runBlock] at h
      split at h
      · cases h
      · split at h <;> cases h
        · exact .answered _ _ ‹_› ‹_›
        · exact .dropped _ _ ‹_› ‹_›

omit [DecidableEq Message] in
section

/-- The bots that the loop has still to come to. -/
def State.remaining (s : State Message) : List ChatBot :=
  (s.running.map Running.remaining).getD []

/-- The block of a request that read the bots in one step, and found those that were asked. -/
def Block.atomic (block : Block Message) : Messages.Block Message where
  request := block.request
  bots := block.asked
  botEnableStates _ := none
  order := block.order
  results := block.results

def Answer.atomic (answer : Answer Message) : Messages.Answer Message :=
  ⟨answer.block.atomic, answer.results, answer.callsMade⟩

/-- The running operation, if these are the bots that it is going to ask. -/
def Running.atomic (more : List ChatBot) (running : Running Message) :
    Messages.Running Message where
  request := running.request
  bots := running.asked ++ more
  botEnableStates _ := none
  localQueue := running.localQueue.addAll more

/-- The state of the machine whose operations read the bots in one step. -/
def State.atomic (s : State Message) (more : List ChatBot) : Messages.State Message where
  lastMessages := s.lastMessages
  queue := s.queue
  running := s.running.map (Running.atomic more)
  main := s.main.map Block.atomic
  handled := s.handled
  calls := s.calls
  answers := s.answers.map Answer.atomic

end

omit [DecidableEq Message] in
theorem pending_atomic : (s.atomic more).pending.map Request.messages = s.pending := by
  cases hrunning : s.running <;>
    simp [Messages.State.pending, State.pending, State.atomic, hrunning, Block.atomic,
      Running.atomic, Function.comp_def]

/-- A step of the loop is none of the machine that has no loop, and the others are the same. -/
theorem atomic_step
    (h : ∀ more, more.Sublist s.remaining → (Messages.machine process).Reachable (s.atomic more))
    (hstep : Step process s action t) (hmore : more.Sublist t.remaining) :
    (Messages.machine process).Reachable (t.atomic more) := by
  have hreach : ∀ (chosen : List ChatBot) (own : Messages.Action Message),
      chosen.Sublist s.remaining →
      (Messages.machine process).next (s.atomic chosen) own = some (t.atomic more) →
      (Messages.machine process).Reachable (t.atomic more) := fun chosen own hchosen hnext =>
    (h chosen hchosen).trans (.step hnext)
  cases hstep with
  | called messages =>
      refine hreach more (.handleMessages messages) hmore (congrArg some ?_)
      simp only [Messages.call, pending_atomic]
      rfl
  | switched name enabled => exact h more hmore
  | appended newBot => exact h more hmore
  | started request rest hrunning hqueue =>
      -- the bots that the loop is going to ask are those that the other machine reads
      have hall : more.filter (isBotEnabled fun _ => none) = more :=
        List.filter_eq_self.mpr fun _ _ => rfl
      refine hreach [] (.start more fun _ => none) (List.nil_sublist _) ?_
      simp [Messages.machine, Messages.start, State.atomic, hrunning, hqueue, Running.atomic,
        hall, LockedAppend.addAll_spawn]
  | asked running bot remaining hrunning hremaining henabled =>
      have hbots : s.remaining = bot :: remaining := by
        simp [State.remaining, hrunning, hremaining]
      have hasked := h (bot :: more) (hbots ▸ hmore.cons_cons bot)
      simpa [State.atomic, hrunning, Running.atomic, LockedAppend.addAll_addAll] using hasked
  | passed running bot remaining hrunning hremaining hdisabled =>
      have hbots : s.remaining = bot :: remaining := by
        simp [State.remaining, hrunning, hremaining]
      have hpassed := h more (hbots ▸ hmore.cons bot)
      simpa [State.atomic, hrunning, Running.atomic] using hpassed
  | worked running i localQueue hrunning hworked =>
      refine hreach more (.work i) (by simpa [State.remaining, hrunning] using hmore) ?_
      simp [Messages.machine, Messages.work, State.atomic, hrunning, Running.atomic,
        LockedAppend.step_addAll more hworked]
  | finished running hrunning hremaining hfinished =>
      refine hreach [] .finish (List.nil_sublist _) ?_
      simp [Messages.machine, Messages.finish, State.atomic, hrunning, Running.atomic,
        LockedAppend.addAll_nil, hfinished, Block.atomic]
  | answered block rest hmain hmatch =>
      refine hreach more .runBlock hmore ?_
      simp [Messages.machine, Messages.runBlock, State.atomic, hmain, Block.atomic, hmatch,
        Answer.atomic]
  | dropped block rest hmain hmatch =>
      refine hreach more .runBlock hmore ?_
      simp [Messages.machine, Messages.runBlock, State.atomic, hmain, Block.atomic, hmatch]

theorem atomic_reachable (h : (machine process bots enabledBots).Reachable s)
    (hmore : more.Sublist s.remaining) : (Messages.machine process).Reachable (s.atomic more) := by
  refine h.invariant (P := fun state => ∀ more, more.Sublist state.remaining →
    (Messages.machine process).Reachable (state.atomic more)) ?_ ?_ more hmore
  · intro more _
    exact show (Messages.machine process).Reachable (Messages.State.initial) from .refl _
  · exact fun state action following hstate hnext more => atomic_step hstate (step_of_next hnext)

end AiGramLib.Messages.Loop
