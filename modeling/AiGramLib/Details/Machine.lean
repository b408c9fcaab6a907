import Mathlib.Data.List.AList
import AiGramLib.Entities
import AiGramLib.Library.Machine

/-!
# Server calls and the bot details

The state machine of the calls that `ChatBotsManager` makes to its server: `rateBot`,
`enableBot`, `isBotRatedBy`, `sendFirstStartIfNeeded`, and the refreshes of
`botsDetailsFromBack` that most of them end in. Data tasks may be answered in any order, each
once, with any data and error; a handler is one step, since it touches nothing shared but the
main queue. A refresh that `init` started is stored by the main block that receives it, every
other one by a second block that this one dispatches.

The bytes of an answer are represented by what `JSONDecoder` makes of them for each of the two
types it is asked for, and an error by its description. `applied`, `ended`, `calls` and
`answers` record the history of a run; no code reads them.
-/

namespace AiGramLib

/-- What the server knows of a bot. -/
structure ChatBotBackDetails where
  name : String
  installation : String
  deletion : String
  theme : String
  phrase : String
  price : String
  rating : String
  votings : String
  deriving DecidableEq, Repr

/-- A user's vote on a bot. -/
structure ChatBotDetailsRated where
  userId : String
  botId : ChatBotId
  rating : String
  deriving DecidableEq, Repr

namespace Details

open Transition

/-- `[ChatBot.ChatBotId: ChatBotBackDetails]` -/
abbrev Table := AList fun _ : ChatBotId => ChatBotBackDetails

/-- The `payload` of an answer, decoded as each of the types the library asks for. -/
structure Payload where
  asDetails : Option (List ChatBotBackDetails)
  asRated : Option (List ChatBotDetailsRated)

/-- Who started a refresh; the numbers are those of the calls. -/
inductive Caller where
  | start
  | firstStart
  | rate (call : Nat)
  | enable (call : Nat)
  deriving DecidableEq

/-- A call of `getTreshovieBots`, in the order in which they are made. -/
structure Refresh where
  number : Nat
  caller : Caller
  deriving DecidableEq

/-- The completion handlers of data tasks. -/
inductive Handler where
  /-- of `sendFirstStartIfNeeded` -/
  | firstStart
  /-- of `rateBot` -/
  | vote (call : Nat)
  /-- of `sendEnablingBot` -/
  | enabling (call : Nat)
  /-- of `isBotRatedBy` -/
  | voting (call : Nat)
  /-- of `getTreshovieBots` -/
  | details (refresh : Refresh)
  deriving DecidableEq

structure DataTask where
  url : String
  handler : Handler
  deriving DecidableEq

/-- The blocks on the main queue. -/
inductive Block where
  /-- The block of `getTreshovieBots`, with the decoded table or `none` if there was an error. -/
  | received (refresh : Refresh) (outcome : Option Table)
  /-- The block that the callback of a refresh dispatches, with the result it was given. -/
  | store (refresh : Refresh) (outcome : Option Table) (result : Table)
  | voteFailed (call : Nat) (error : String)
  | enablingFailed (call : Nat)
  | rated (call : Nat) (result : Option ChatBotDetailsRated)

/-- What a completion is called with. -/
inductive Report where
  | rateBot (error : Option String)
  | enableBot
  | isBotRatedBy (result : Option ChatBotDetailsRated)
  deriving DecidableEq

inductive Kind where
  | rateBot
  | enableBot
  | isBotRatedBy
  deriving DecidableEq

def Report.kind : Report → Kind
  | .rateBot _ => .rateBot
  | .enableBot => .enableBot
  | .isBotRatedBy _ => .isBotRatedBy

/-- One invocation of a completion. -/
structure Answer where
  call : Nat
  report : Report
  deriving DecidableEq

/-- One assignment to `botsDetailsFromBack`: the refresh, the table it brought or `none` if it
failed, and the values before and after. -/
structure Application where
  refresh : Nat
  outcome : Option Table
  before : Table
  after : Table

/-- How the vote or enabling request of a call ended, and the number of refreshes that had been
started by then. -/
structure Ended where
  call : Nat
  error : Option String
  started : Nat
  deriving DecidableEq

structure State where
  botsDetailsFromBack : Table
  /-- `EnabledBots` and `WasStartedBefore` in `UserDefaults`. -/
  enabledBots : AList fun _ : ChatBotId => Bool
  wasStartedBefore : Bool
  /-- The data tasks that have not been answered. -/
  tasks : List DataTask
  /-- The blocks on the main queue, the oldest first. -/
  main : List Block
  /-- The number of refreshes started. -/
  started : Nat
  applied : List Application
  ended : List Ended
  calls : List Kind
  answers : List Answer

/-- No data task and no main block is pending. -/
def State.Quiescent (s : State) : Prop := s.tasks = [] ∧ s.main = []

inductive Action where
  | sendFirstStartIfNeeded (userId : Int)
  | rateBot (bot : ChatBot) (rating userId : Int)
  | enableBot (bot : ChatBot) (enabled : Bool) (userId : Int)
  | isBotRatedBy (userId : Int) (bot : ChatBot)
  /-- The handler of a data task runs. -/
  | respond (i : Nat) (data : Option Payload) (error : Option String)
  /-- The next main block runs. -/
  | runBlock

/-- The address of the server's functions. -/
def functionsUrl : String :=
  "https://us-central1-api-7231730271161646241-853730.cloudfunctions.net/"

/-- `dataTask(with:)` and `resume()` -/
def request (s : State) (function : String) (handler : Handler) : State :=
  { s with tasks := s.tasks ++ [⟨functionsUrl ++ function, handler⟩] }

/-- `getTreshovieBots`, up to its data task. -/
def getTreshovieBots (s : State) (caller : Caller) : State :=
  { request s "getBotsInfo" (.details ⟨s.started, caller⟩) with started := s.started + 1 }

/-- `DispatchQueue.main.async` -/
def dispatch (s : State) (block : Block) : State :=
  { s with main := s.main ++ [block] }

/-- The table that the handler of `getTreshovieBots` builds, or `none` if it has an error. -/
def decodeDetails (data : Option Payload) (error : Option String) : Option Table :=
  match data with
  | none => if error.isNone then some ∅ else none
  | some payload =>
      match payload.asDetails with
      | none => none
      | some details =>
          let result := details.foldl (fun result detail => result.insert detail.name detail) ∅
          if error.isNone then some result else none

/-- The vote that the handler of `isBotRatedBy` finds. -/
def decodeRated (data : Option Payload) : Option ChatBotDetailsRated := do
  let payload ← data
  let rated ← payload.asRated
  rated.head?

/-- The handler of a data task. -/
def handle (s : State) (handler : Handler) (data : Option Payload) (error : Option String) :
    State :=
  match handler with
  | .firstStart =>
      if error.isNone then getTreshovieBots { s with wasStartedBefore := true } .firstStart else s
  | .vote call =>
      let s' := { s with ended := s.ended ++ [⟨call, error, s.started⟩] }
      match error with
      | some error => dispatch s' (.voteFailed call error)
      | none => getTreshovieBots s' (.rate call)
  | .enabling call =>
      let s' := { s with ended := s.ended ++ [⟨call, error, s.started⟩] }
      if error.isNone then getTreshovieBots s' (.enable call)
      else dispatch s' (.enablingFailed call)
  | .voting call => dispatch s (.rated call (decodeRated data))
  | .details refresh => dispatch s (.received refresh (decodeDetails data error))

/-- `self.botsDetailsFromBack = result` -/
def store (s : State) (refresh : Refresh) (outcome : Option Table) (result : Table) : State :=
  { s with
    botsDetailsFromBack := result
    applied := s.applied ++ [⟨refresh.number, outcome, s.botsDetailsFromBack, result⟩] }

def report (s : State) (call : Nat) (report : Report) : State :=
  { s with answers := s.answers ++ [⟨call, report⟩] }

/-- A main block. -/
def runMain (s : State) : Block → State
  | .received refresh outcome =>
      -- after an error, the table of this moment is passed on
      let result := outcome.getD s.botsDetailsFromBack
      match refresh.caller with
      | .start => store s refresh outcome result
      | _ => dispatch s (.store refresh outcome result)
  | .store refresh outcome result =>
      let s' := store s refresh outcome result
      match refresh.caller with
      | .rate call => report s' call (.rateBot none)
      | .enable call => report s' call .enableBot
      | .start | .firstStart => s'
  | .voteFailed call error => report s call (.rateBot (some error))
  | .enablingFailed call => report s call .enableBot
  | .rated call result => report s call (.isBotRatedBy result)

/-- Just after `ChatBotsManager.init`, which starts a refresh. -/
def State.initial (enabledBots : AList fun _ : ChatBotId => Bool) (wasStartedBefore : Bool) :
    State :=
  getTreshovieBots
    { botsDetailsFromBack := ∅, enabledBots, wasStartedBefore, tasks := [], main := [],
      started := 0, applied := [], ended := [], calls := [], answers := [] }
    .start

def sendFirstStartIfNeeded (s : State) (userId : Int) : State :=
  if s.wasStartedBefore then s
  else
    request s s!"installDeleteApp?app_id=telegram_client&type=1&user_id={userId}" .firstStart

/-- A call with a completion is numbered. -/
def call (s : State) (kind : Kind) : State :=
  { s with calls := s.calls ++ [kind] }

def rateBot (s : State) (bot : ChatBot) (rating userId : Int) : State :=
  request (call s .rateBot) s!"voteBot?user_id={userId}&bot_id={bot.name}&rating={rating}"
    (.vote s.calls.length)

/-- `enableBot` and `sendEnablingBot`. -/
def enableBot (s : State) (bot : ChatBot) (enabled : Bool) (userId : Int) : State :=
  let type := if enabled then 1 else 2
  request (call { s with enabledBots := s.enabledBots.insert bot.name enabled } .enableBot)
    s!"installDeleteBot?bot_id={bot.name}&type={type}&user_id={userId}"
    (.enabling s.calls.length)

def isBotRatedBy (s : State) (userId : Int) (bot : ChatBot) : State :=
  request (call s .isBotRatedBy) s!"getBotVoting?user_id={userId}&bot_id={bot.name}"
    (.voting s.calls.length)

/-- All interleavings of calls, answers of the server and main blocks. -/
def machine (enabledBots : AList fun _ : ChatBotId => Bool) (wasStartedBefore : Bool) :
    Machine State Action where
  start := .initial enabledBots wasStartedBefore
  next s
    | .sendFirstStartIfNeeded userId => some (sendFirstStartIfNeeded s userId)
    | .rateBot bot rating userId => some (rateBot s bot rating userId)
    | .enableBot bot enabled userId => some (enableBot s bot enabled userId)
    | .isBotRatedBy userId bot => some (isBotRatedBy s userId bot)
    | .respond i data error => do
        let task ← s.tasks[i]?
        pure (handle { s with tasks := s.tasks.eraseIdx i } task.handler data error)
    | .runBlock =>
        match s.main with
        | [] => none
        | block :: rest => some (runMain { s with main := rest } block)

end Details

end AiGramLib
