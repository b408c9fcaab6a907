import AiGramLib.Entities
import AiGramLib.Library.LockedAppend
import AiGramLib.Library.Machine

/-!
# `handleMessages` under every schedule

The state machine of `ChatBotsManager.handleMessages`: the calls themselves, the serial
`queue`, the operations of the bots on the `localQueue` of the request being processed, and
the blocks on the main queue. A completion is the last thing a main block runs, so a call
made from inside one is a call made right after the block. `Message` stands for `String`
under its `==`, and `process` for `BotProcessor(bot:).process(messages:)`.

`calls` and `answers` record the history of a run; no code reads them.
-/

namespace AiGramLib

/-- `isBotEnabled`, on the dictionary stored under `EnabledBots`. -/
def isBotEnabled (botEnableStates : ChatBotId → Option Bool) (bot : ChatBot) : Bool :=
  (botEnableStates bot.name).getD true

/-- Move the first result of the bot `assistant`, if there is one, to the front. -/
def resultsWithAssistantHandling (results : List ChatBotResult) : List ChatBotResult :=
  match results.findIdx? fun result => result.bot.name == "assistant" with
  | some index =>
      if 0 < index then
        match results[index]? with
        | some temp => temp :: results.eraseIdx index
        | none => results
      else results
  | none => results

namespace Messages

open Transition

variable {Message : Type}

/-- What an operation of `queue` has captured: its place in the order of calls, which stands
for the completion, and the messages. -/
structure Request (Message : Type) where
  call : Nat
  messages : List Message
  deriving DecidableEq

/-- The request whose operation is running, with what its loop over the bots read. -/
structure Running (Message : Type) where
  request : Request Message
  bots : List ChatBot
  botEnableStates : ChatBotId → Option Bool
  localQueue : LockedAppend.State ChatBot ChatBotResult

/-- The main block of a request, with the results in the order in which they were appended. -/
structure Block (Message : Type) where
  request : Request Message
  bots : List ChatBot
  botEnableStates : ChatBotId → Option Bool
  order : List ChatBot
  results : List ChatBotResult

/-- One call of `handleMessages`: its messages, and the messages of the requests that were
still unfinished when it was made. -/
structure Call (Message : Type) where
  messages : List Message
  ahead : List (List Message)
  deriving DecidableEq

/-- One invocation of a completion: the block that invoked it, the list passed, and the number
of calls made before. -/
structure Answer (Message : Type) where
  block : Block Message
  results : List ChatBotResult
  callsMade : Nat

structure State (Message : Type) where
  lastMessages : Option (List Message)
  /-- The operations that have not started, the oldest first. -/
  queue : List (Request Message)
  running : Option (Running Message)
  /-- The blocks on the main queue, the oldest first. -/
  main : List (Block Message)
  /-- The number of main blocks that have run. -/
  handled : Nat
  calls : List (Call Message)
  answers : List (Answer Message)

/-- The requests that are not finished, the oldest first. -/
def State.pending (s : State Message) : List (Request Message) :=
  s.main.map Block.request ++ s.running.toList.map Running.request ++ s.queue

/-- The state before the first call. -/
def State.initial : State Message where
  lastMessages := none
  queue := []
  running := none
  main := []
  handled := 0
  calls := []
  answers := []

/-- No operation is queued or running and no main block is pending. -/
def State.Quiescent (s : State Message) : Prop :=
  s.queue = [] ∧ s.running = none ∧ s.main = []

inductive Action (Message : Type) where
  /-- A call `handleMessages(messages, completion:)`. -/
  | handleMessages (messages : List Message)
  /-- The next operation starts: its loop reads `self.bots` and the stored enable states. -/
  | start (bots : List ChatBot) (botEnableStates : ChatBotId → Option Bool)
  /-- One step of the operation at a position of `localQueue`. -/
  | work (i : Nat)
  /-- `waitUntilAllOperationsAreFinished` returns, and the main block is dispatched. -/
  | finish
  /-- The next main block runs. -/
  | runBlock

section

variable (process : ChatBot → List Message → ChatBotResult)

/-- What the operation of one bot appends to `results`; it takes no lock if there is nothing
to append. -/
def botBlock (messages : List Message) (bot : ChatBot) : Option (List ChatBotResult) :=
  let result := process bot messages
  if result.responses.isEmpty then none else some [result]

/-- The body of `handleMessages`. -/
def call (s : State Message) (messages : List Message) : State Message :=
  { s with
    lastMessages := some messages
    queue := s.queue ++ [⟨s.calls.length, messages⟩]
    calls := s.calls ++ [⟨messages, s.pending.map Request.messages⟩] }

/-- The start of the oldest queued operation, if none is running. -/
def start (s : State Message) (bots : List ChatBot)
    (botEnableStates : ChatBotId → Option Bool) : Option (State Message) :=
  match s.running, s.queue with
  | none, request :: rest =>
      some { s with
        queue := rest
        running := some {
          request, bots, botEnableStates
          localQueue := .spawn (bots.filter (isBotEnabled botEnableStates)) } }
  | _, _ => none

/-- A step of the operation of one bot. -/
def work (s : State Message) (i : Nat) : Option (State Message) := do
  let running ← s.running
  let localQueue ← LockedAppend.step (botBlock process running.request.messages)
    running.localQueue i
  pure { s with running := some { running with localQueue } }

/-- The end of the running operation. -/
def finish (s : State Message) : Option (State Message) := do
  let running ← s.running
  if running.localQueue.allFinished then
    pure { s with
      running := none
      main := s.main ++ [{
        request := running.request
        bots := running.bots
        botEnableStates := running.botEnableStates
        order := running.localQueue.order
        results := running.localQueue.shared }] }
  else none

variable [DecidableEq Message]

/-- The main block of a request. -/
def runBlock (s : State Message) : Option (State Message) :=
  match s.main with
  | [] => none
  | block :: rest =>
      if some block.request.messages = s.lastMessages then
        some { s with
          main := rest
          handled := s.handled + 1
          lastMessages := none
          answers := s.answers ++
            [⟨block, resultsWithAssistantHandling block.results, s.calls.length⟩] }
      else some { s with main := rest, handled := s.handled + 1 }

/-- All interleavings of calls, operations and main blocks. -/
def machine : Machine (State Message) (Action Message) where
  start := .initial
  next s
    | .handleMessages messages => some (call s messages)
    | .start bots botEnableStates => start s bots botEnableStates
    | .work i => work process s i
    | .finish => finish s
    | .runBlock => runBlock s

end

end Messages

end AiGramLib
