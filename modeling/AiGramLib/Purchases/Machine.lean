import AiGramLib.CopyBot
import AiGramLib.Store.Loader

/-!
# Buying bots

The state machine of `buyBot` and `paymentQueue(_:updatedTransactions:)`, together with the
store loader they read `products` and `loadedBotsInStore` from. A step is a main-thread step
up to the point where it calls out, one file operation of a `copyBot` on a global queue, or a
network request that ends. Main blocks may run in any order, which includes the order they were
dispatched in. The table of details that `sendEnablingBot` refreshes and the block with which
`copyBot` appends to `bots` are left out: nothing here reads them.

`calls`, `answers` and `finished` record the history of a run. StoreKit is on the other side
of `payments` and `updatedTransactions`.
-/

namespace AiGramLib.Purchases

open Transition

inductive TransactionState where
  | purchasing | purchased | failed | restored | deferred
  deriving DecidableEq, Repr

/-- A payment that `buyBot` has added to the queue, with the number of the call. -/
structure Payment where
  call : Nat
  productIdentifier : String
  deriving DecidableEq, Repr

/-- A transaction of the queue in one of its states. `payment` is the call of `buyBot` that
started it, if it was started in this run of the app. -/
structure Transaction where
  number : Nat
  payment : Option Nat
  productIdentifier : String
  transactionState : TransactionState
  deriving DecidableEq, Repr

/-- A purchased or failed transaction is the end of its payment. -/
def Transaction.ends (transaction : Transaction) (payment : Payment) : Bool :=
  transaction.payment == some payment.call &&
    transaction.productIdentifier == payment.productIdentifier

/-- A completion passed to `buyBot`, by the number of the call, and the bot of that call. -/
structure Completion where
  call : Nat
  bot : ChatBot

/-- One invocation of a completion: its argument, and whether the bot was installed then. -/
structure Answer where
  call : Nat
  value : Bool
  isLocal : Bool
  deriving DecidableEq, Repr

/-- Where the work of a purchased transaction stands. -/
inductive Stage where
  /-- `copyBot` runs on a global queue. -/
  | copying (stage : CopyStage)
  /-- The request of `sendEnablingBot` is under way. -/
  | enabling
  /-- The request of `getTreshovieBots` is under way. -/
  | refreshing
  /-- The main block that hands its result on is dispatched. -/
  | publishing
  /-- The main block that looks up the completion is dispatched. -/
  | reporting (copied : Bool)
  deriving DecidableEq, Repr

/-- The work that the handler of a purchased transaction dispatches. -/
structure Installation where
  productIdentifier : String
  bot : ChatBot
  stage : Stage
  deriving DecidableEq

structure State where
  loader : Loader.State
  userId : Option Int
  fs : FileSystem
  buyCompletions : AList fun _ : String => Completion
  payments : List Payment
  /-- The transactions that the loop of `updatedTransactions` has not come to. -/
  handling : List Transaction
  /-- The product identifier whose completion is running: the next statement on the main
  thread is `removeValue(forKey:)` for it. -/
  returning : Option String
  installations : List Installation
  finished : List Transaction
  calls : Nat
  answers : List Answer

def State.initial (fs : FileSystem) : State where
  loader := .initial
  userId := none
  fs
  buyCompletions := ∅
  payments := []
  handling := []
  returning := none
  installations := []
  finished := []
  calls := 0
  answers := []

/-- All blocks that the handlers dispatched have run. -/
def State.Quiescent (s : State) : Prop :=
  s.returning = none ∧ s.handling = [] ∧ s.installations = []

instance (s : State) : Decidable s.Quiescent :=
  inferInstanceAs (Decidable (_ ∧ _ ∧ _))

/-- No step is being executed on the main thread. -/
def State.mainIdle (s : State) : Bool :=
  s.returning.isNone && s.handling.isEmpty && s.loader.current.isEmpty

/-- Code that uses the library may run on the main thread: a step of its own, or a completion
that the library is calling. -/
def State.userCode (s : State) : Bool :=
  s.returning.isSome || s.handling.isEmpty

inductive Action where
  | setUserId (userId : Int)
  | buyBot (bot : ChatBot)
  /-- A step of the store loader. -/
  | loader (action : Loader.Action)
  | updatedTransactions (transactions : List Transaction)
  /-- The main thread goes on with the step it is executing. -/
  | continue
  /-- The `copyBot` of an installation makes its next file operation. -/
  | copy (i : Nat) (outcome : Outcome)
  /-- An installation goes on after `copyBot`; `failed` is the answer of the network, where
  it waits for one. -/
  | proceed (i : Nat) (failed : Bool)
  /-- The main block that reports the result of an installation runs. -/
  | deliver (i : Nat)
  /-- The app is started again. -/
  | launch

def isBotBought (s : State) (bot : ChatBot) : Bool :=
  bot.isLocal s.fs

def buyBot (s : State) (bot : ChatBot) : State :=
  let answered (value : Bool) : State := { s with
    calls := s.calls + 1
    answers := s.answers ++ [⟨s.calls, value, bot.isLocal s.fs⟩] }
  if isBotBought s bot then answered true
  else
    match s.loader.products.find? fun product => product.productIdentifier == idOfBot bot with
    | none => answered false
    | some product =>
        -- a completion that waits under the same identifier is overwritten
        { s with
          calls := s.calls + 1
          buyCompletions := s.buyCompletions.insert (idOfBot bot) ⟨s.calls, bot⟩
          payments := s.payments ++ [⟨s.calls, product.productIdentifier⟩] }

/-- `self.buyCompletions[productIdentifier]?(value)`, up to the `removeValue` that follows. -/
def report (s : State) (productIdentifier : String) (value : Bool) : State :=
  match s.buyCompletions.lookup productIdentifier with
  | some completion =>
      { s with
        answers := s.answers ++ [⟨completion.call, value, completion.bot.isLocal s.fs⟩]
        returning := some productIdentifier }
  | none => s

section Report

variable (s : State) (productIdentifier : String) (value : Bool)

@[simp] theorem report_fs : (report s productIdentifier value).fs = s.fs := by
  unfold report
  split <;> rfl

@[simp] theorem report_buyCompletions :
    (report s productIdentifier value).buyCompletions = s.buyCompletions := by
  unfold report
  split <;> rfl

@[simp] theorem report_payments : (report s productIdentifier value).payments = s.payments := by
  unfold report
  split <;> rfl

@[simp] theorem report_installations :
    (report s productIdentifier value).installations = s.installations := by
  unfold report
  split <;> rfl

@[simp] theorem report_finished : (report s productIdentifier value).finished = s.finished := by
  unfold report
  split <;> rfl

end Report

def finishTransaction (s : State) (transaction : Transaction) : State :=
  { s with finished := s.finished ++ [transaction] }

/-- StoreKit has no more to say about the payment of this transaction. -/
def endPayment (s : State) (transaction : Transaction) : State :=
  { s with payments := s.payments.filter fun payment => !transaction.ends payment }

/-- One turn of the loop in `paymentQueue(_:updatedTransactions:)`. StoreKit sets the error of a
failed transaction, so the `transaction.error!` that is printed has a value. -/
def handle (s : State) (transaction : Transaction) : State :=
  match transaction.transactionState with
  | .purchasing => s
  | .purchased =>
      -- finished before the bot is looked up, and nothing is dispatched if it is not found
      let s := endPayment (finishTransaction s transaction) transaction
      match purchasedBot s.loader.loadedBotsInStore transaction.productIdentifier with
      | none => s
      | some bot =>
          { s with
            installations :=
              s.installations ++ [⟨transaction.productIdentifier, bot, .copying .guards⟩] }
  | .failed =>
      report (endPayment (finishTransaction s transaction) transaction)
        transaction.productIdentifier false
  | .restored => finishTransaction s transaction
  | .deferred => s

/-- StoreKit delivers transactions that are different from each other and not finished, and
those it started in this run belong to a payment that has not ended. -/
def deliverable (s : State) (transactions : List Transaction) : Bool :=
  (transactions.map Transaction.number).Nodup &&
    transactions.all fun transaction =>
      (s.finished.all fun finished => finished.number != transaction.number) &&
        transaction.payment.all fun call =>
          s.payments.contains ⟨call, transaction.productIdentifier⟩

/-- The next statement on the main thread: the `removeValue` after a completion has returned,
or the next turn of the loop over the transactions. -/
def continueStep (s : State) : Option State :=
  match s.returning, s.handling with
  | some productIdentifier, _ =>
      -- whatever is stored by now, also what the completion itself has registered
      some { s with
        returning := none
        buyCompletions := s.buyCompletions.erase productIdentifier }
  | none, transaction :: rest => some (handle { s with handling := rest } transaction)
  | none, [] => none

def copy (s : State) (i : Nat) (outcome : Outcome) : Option State := do
  let installation ← s.installations[i]?
  match installation.stage with
  | .copying stage =>
      let effect ← copyStep installation.bot s.fs stage outcome
      pure { s with
        fs := effect.fs
        installations :=
          s.installations.set i { installation with stage := .copying effect.stage } }
  | _ => none

/-- What follows `copyBot`. `sendEnablingBot` takes `userId` out of an implicitly unwrapped
optional, so it is not reached without one. Its URL is another one: it is nil for names that do not
fit into an address, which bots of the store are taken not to have. -/
def nextStage (s : State) (failed : Bool) : Stage → Option Stage
  | .copying (.returned true) => if s.userId.isSome then some .enabling else none
  | .copying (.returned false) => some (.reporting false)
  | .enabling => some (if failed then .reporting true else .refreshing)
  | .refreshing => some .publishing
  | .publishing => if s.mainIdle then some (.reporting true) else none
  | .copying _ | .reporting _ => none

def proceed (s : State) (i : Nat) (failed : Bool) : Option State := do
  let installation ← s.installations[i]?
  let stage ← nextStage s failed installation.stage
  pure { s with installations := s.installations.set i { installation with stage } }

def deliver (s : State) (i : Nat) : Option State := do
  let installation ← s.installations[i]?
  match installation.stage with
  | .reporting copied =>
      if s.mainIdle then
        pure (report { s with installations := s.installations.eraseIdx i }
          installation.productIdentifier copied)
      else none
  | _ => none

/-- The process ends, wherever it is, and a new one starts: only the files and the queue of
StoreKit survive. -/
def launch (s : State) : State :=
  { s with
    loader := .initial
    userId := none
    buyCompletions := ∅
    handling := []
    returning := none
    installations := [] }

/-- Whether a step of the store loader can be made between the steps of this machine. -/
def State.admits (s : State) : Loader.Action → Bool
  | .botsInStore | .loadProducts _ => s.userCode
  | .load _ _ | .requestFails _ => true
  | .didReceive _ _ | .runBlock | .continue => s.returning.isNone && s.handling.isEmpty

/-- What `ChatBot(url:)` gives for the URLs of the bundle. -/
def loads (fs : FileSystem) (urls : List URL) : List (Option ChatBot) :=
  urls.map (ChatBot.init fs)

/-- All interleavings, from a first launch over a file system whose bundle has these URLs. -/
def machine (fs : FileSystem) (urls : List URL) : Machine State Action where
  start := .initial fs
  next s
    | .setUserId userId => some { s with userId := some userId }
    | .buyBot bot => if s.userCode then some (buyBot s bot) else none
    | .loader action =>
        if s.admits action then
          ((Loader.machine (loads fs urls)).next s.loader action).map fun loader =>
            { s with loader }
        else none
    | .updatedTransactions transactions =>
        if s.mainIdle && deliverable s transactions then
          some { s with handling := transactions }
        else none
    | .continue => continueStep s
    | .copy i outcome => copy s i outcome
    | .proceed i failed => proceed s i failed
    | .deliver i => deliver s i
    | .launch => some (launch s)

end AiGramLib.Purchases
