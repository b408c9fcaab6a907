import AiGramLib.Library.Machine
import AiGramLib.ProductId
import AiGramLib.Store.Chain

/-!
# Loading the store

The state machine of `botsInStore` and `loadProducts`, spread over `ChatBotsManager` and
`BotsStoreManager`: two flags and a list of pending completions in the one, a single slot for
the completion of a product request in the other. A request can be answered or can fail; the
delegate has no method for a failure, so nothing of the library runs then.

Completions are numbered in the order of the calls. Code in a completion runs on the main
thread between two of its steps, so the calls it makes are calls at that point. `calls`,
`answers` and the counters below them record the history of a run; no code reads them.
-/

namespace AiGramLib

/-- The argument of a completion of `botsInStore`. -/
inductive Result (α : Type) where
  | success (value : α)
  | fail (error : String)
  deriving DecidableEq, Repr

structure SKProduct where
  productIdentifier : String
  deriving DecidableEq, Repr

namespace Loader

open Transition

/-- The completion in `productsCompletion`: the one of the load block, which dispatches the
final main block with the list it built, or one passed to `loadProducts` by other code, with
the number of its own request. -/
inductive ProductsCompletion where
  | loadBlock (result : List ChatBot)
  | client (request : Nat)
  deriving DecidableEq

/-- A started `SKProductsRequest`. -/
structure ProductsRequest where
  number : Nat
  productIdentifiers : Finset String
  deriving DecidableEq

/-- What is left to do of the main-thread step being executed. -/
inductive Instr where
  /-- A turn of `storeBotsLoadingCompletions.forEach`. -/
  | block (call : Nat)
  /-- `storeBotsLoadingCompletions.removeAll()` -/
  | removeAll
  /-- `self?.productsCompletion = nil`, after `completion()` -/
  | clearProductsCompletion
  deriving DecidableEq

/-- One invocation of a completion of `botsInStore`. -/
structure Answer where
  call : Nat
  result : Result (List ChatBot)
  deriving DecidableEq

structure State where
  loadedBotsFlag : Bool
  loadedBotsInStore : List ChatBot
  storeBotsLoadingStarted : Bool
  storeBotsLoadingCompletions : List Nat
  products : List SKProduct
  productsCompletion : Option ProductsCompletion
  /-- The number of load blocks that are dispatched and have not run. -/
  loadBlocks : Nat
  requests : List ProductsRequest
  /-- The final main blocks that are dispatched and have not started, with their lists. -/
  mainBlocks : List (List ChatBot)
  current : List Instr
  calls : Nat
  answers : List Answer
  loadsStarted : Nat
  requestsStarted : Nat
  requestsAnswered : List Nat
  requestsFailed : Nat
  /-- The number of final main blocks that have run to their end. -/
  blocksRun : Nat
  /-- The invocations of completions passed to `loadProducts` by other code, each with the
  requests answered before. -/
  productsAnswers : List (Nat × List Nat)

def State.initial : State where
  loadedBotsFlag := false
  loadedBotsInStore := []
  storeBotsLoadingStarted := false
  storeBotsLoadingCompletions := []
  products := []
  productsCompletion := none
  loadBlocks := 0
  requests := []
  mainBlocks := []
  current := []
  calls := 0
  answers := []
  loadsStarted := 0
  requestsStarted := 0
  requestsAnswered := []
  requestsFailed := 0
  blocksRun := 0
  productsAnswers := []

/-- No load block, product request or main block is outstanding. -/
def State.Quiescent (s : State) : Prop :=
  s.loadBlocks = 0 ∧ s.requests = [] ∧ s.mainBlocks = [] ∧ s.current = []

instance (s : State) : Decidable s.Quiescent :=
  inferInstanceAs (Decidable (_ ∧ _))

inductive Action where
  /-- A call of `botsInStore`. -/
  | botsInStore
  /-- A call of `loadProducts` by code outside the load block. -/
  | loadProducts (bots : List ChatBot)
  /-- The load block runs; `name` is what `first` gives. -/
  | load (name : Option ChatBotId) (fuel : Nat)
  /-- `productsRequest(_:didReceive:)` for an outstanding request. -/
  | didReceive (i : Nat) (products : List SKProduct)
  /-- An outstanding request ends in failure. -/
  | requestFails (i : Nat)
  /-- The final main block starts: it stores the list and the flag. -/
  | runBlock
  /-- The main thread goes on with the step it is executing. -/
  | continue

/-- The body of `botsInStore` up to its load block. -/
def botsInStore (s : State) : State :=
  let s' := { s with calls := s.calls + 1 }
  if s.loadedBotsFlag then
    { s' with answers := s.answers ++ [⟨s.calls, .success s.loadedBotsInStore⟩] }
  else
    let s' := { s' with
      storeBotsLoadingCompletions := s.storeBotsLoadingCompletions ++ [s.calls] }
    if s.storeBotsLoadingStarted then s'
    else
      { s' with
        storeBotsLoadingStarted := true
        loadBlocks := s.loadBlocks + 1
        loadsStarted := s.loadsStarted + 1 }

/-- `loadProducts(for:_:)` -/
def loadProducts (s : State) (bots : List ChatBot) (completion : ProductsCompletion) : State :=
  { s with
    productsCompletion := some completion
    requests := s.requests ++ [⟨s.requestsStarted, (bots.map idOfBot).toFinset⟩]
    requestsStarted := s.requestsStarted + 1 }

/-- The load block of `botsInStore`. -/
def load (bundle : List (Option ChatBot)) (s : State) (name : Option ChatBotId) (fuel : Nat) :
    Option State := do
  if 0 < s.loadBlocks then
    let result ← storeBots bundle name fuel
    pure (loadProducts { s with loadBlocks := s.loadBlocks - 1 } result (.loadBlock result))
  else none

/-- `productsRequest(_:didReceive:)`, up to the end of the completion it calls. The completion
of the load block only dispatches a main block, so its slot is cleared in the same step. -/
def didReceive (s : State) (i : Nat) (products : List SKProduct) : Option State := do
  let request ← s.requests[i]?
  if s.current = [] then
    let s' := { s with
      products
      requests := s.requests.eraseIdx i
      requestsAnswered := s.requestsAnswered ++ [request.number] }
    match s.productsCompletion with
    -- the result that is passed on was captured when the request was made
    | some (.loadBlock result) =>
        pure { s' with mainBlocks := s.mainBlocks ++ [result], productsCompletion := none }
    | some (.client own) =>
        pure { s' with
          productsAnswers := s.productsAnswers ++ [(own, s'.requestsAnswered)]
          current := [.clearProductsCompletion] }
    | none => pure s'
  else none

/-- A request fails: the delegate is not told, as it has no method for it. -/
def requestFails (s : State) (i : Nat) : Option State := do
  let _ ← s.requests[i]?
  pure { s with requests := s.requests.eraseIdx i, requestsFailed := s.requestsFailed + 1 }

/-- The final main block, up to its loop over the pending completions. -/
def runBlock (s : State) : Option State :=
  match s.current, s.mainBlocks with
  | [], result :: rest =>
      some { s with
        mainBlocks := rest
        loadedBotsInStore := result
        loadedBotsFlag := true
        current := s.storeBotsLoadingCompletions.map .block ++ [.removeAll] }
  | _, _ => none

/-- The next statement of the main-thread step being executed. `result` in the final main
block is the list it has just stored. -/
def continueStep (s : State) : Option State :=
  match s.current with
  | [] => none
  | .block call :: rest =>
      some { s with
        current := rest
        answers := s.answers ++ [⟨call, .success s.loadedBotsInStore⟩] }
  | .removeAll :: rest =>
      some { s with
        current := rest
        storeBotsLoadingCompletions := []
        blocksRun := s.blocksRun + 1 }
  | .clearProductsCompletion :: rest =>
      some { s with current := rest, productsCompletion := none }

/-- All interleavings, for a bundle whose URLs give these results of `ChatBot(url:)`. -/
def machine (bundle : List (Option ChatBot)) : Machine State Action where
  start := .initial
  next s
    | .botsInStore => some (botsInStore s)
    | .loadProducts bots => some (loadProducts s bots (.client s.requestsStarted))
    | .load name fuel => load bundle s name fuel
    | .didReceive i products => didReceive s i products
    | .requestFails i => requestFails s i
    | .runBlock => runBlock s
    | .continue => continueStep s

end Loader

end AiGramLib
