import AiGramLib.InterpreterOperation
import AiGramLib.Processor.Process

/-!
# `process` with the handshakes of its operations

`addOperations(_:waitUntilFinished:)` waits for the `main` of every operation, and nothing but
the handshake with its callback keeps a `main` from returning before the responses to its message
are there. Here every operation of `process` has the handshake of `AiGramLib.InterpreterOperation`,
and the body of its callback makes the steps of `AiGramLib.Processor.Process`. A step of a
handshake leaves fewer of them (`left`), wake-ups without a signal included.
-/

namespace AiGramLib.BotProcessor.Handshake

open Transition InterpreterOperation

variable {Score : Type}

structure State (Score : Type) where
  /-- What the interpreter has been run on, and the list of responses. -/
  process : BotProcessor.State Score
  /-- The handshakes of the operations, by their place in the queue. -/
  operations : List InterpreterOperation.State

inductive Action where
  /-- The next statement of the `main` of an operation. -/
  | main (i : Nat)
  /-- The next step of the callback of an operation. -/
  | callback (i : Nat)
  /-- `wait` in the `main` of an operation returns although nobody signalled. -/
  | spuriousWakeup (i : Nat)
  deriving DecidableEq, Repr

/-- What `process` returns, when the queue has finished. -/
def returned (bot : ChatBot) (s : State Score) : Option ChatBotResult :=
  if s.operations.all fun operation => operation.main == .returned then
    some { bot, responses := s.process.group.shared }
  else none

/-- The handshake that a step belongs to goes as it should. -/
def awaited (s : State Score) : Action → Bool
  | .main _ => true
  | .callback i =>
      s.operations[i]?.all fun operation => InterpreterOperation.awaited operation .callback
  | .spuriousWakeup i =>
      s.operations[i]?.all fun operation => InterpreterOperation.awaited operation .spuriousWakeup

variable [Zero Score] [One Score]

/-- `main` of the operation at a position; its first statement runs the interpreter. -/
def mainStep (bot : ChatBot) (s : State Score) (i : Nat) : Option (State Score) := do
  let operation ← s.operations[i]?
  let moved ← InterpreterOperation.mainStep operation
  let operations := s.operations.set i moved
  match operation.main with
  | .run => do
      let process ← BotProcessor.mainStep bot s.process i
      some { process, operations }
  | _ => some { s with operations }

variable [LE Score] [DecidableLE Score]

/-- The callback of the operation at a position: its computations and `completion`, and then the
block that it has deferred. -/
def callbackStep (threshold : Score) (bot : ChatBot)
    (interpreter : List Score → Option (List.Vector Score bot.responses.length))
    (s : State Score) (i : Nat) : Option (State Score) := do
  let operation ← s.operations[i]?
  let worker ← s.process.group.workers[i]?
  if operation.callback = .body ∧ worker.phase ≠ .finished then
    let process ← BotProcessor.callbackStep threshold bot interpreter s.process i
    some { s with process }
  else
    let answer := operationBlock threshold bot interpreter worker.job
    let moved ← InterpreterOperation.callbackStep answer operation
    some { s with operations := s.operations.set i moved }

def spuriousWakeup (s : State Score) (i : Nat) : Option (State Score) := do
  let operation ← s.operations[i]?
  let lock ← operation.lock.wake .main
  some { s with operations := s.operations.set i { operation with lock } }

/-- All interleavings of the operations of `process(messages:)` with their callbacks. -/
def machine (tagger : LinguisticTagger) (threshold : Score) (bot : ChatBot)
    (interpreter : List Score → Option (List.Vector Score bot.responses.length))
    (messages : List Message) : Machine (State Score) Action where
  start := {
    process := (process tagger threshold bot interpreter messages).start
    operations := (operations tagger messages).map fun _ => ⟨.run, .absent, .idle, []⟩ }
  next s
    | .main i => mainStep bot s i
    | .callback i => callbackStep threshold bot interpreter s i
    | .spuriousWakeup i => spuriousWakeup s i

/-- The statements of `main` that are left. A wait is left until it has been woken as well. -/
def mainLeft : MainPoint → Nat
  | .run => 10
  | .lock => 5
  | .wait => 4
  | .asleep => 2
  | .unlock => 1
  | .returned => 0

def callbackLeft : CallbackPoint → Nat
  | .absent => 0
  | .body => 4
  | .lock => 3
  | .signal => 2
  | .unlock => 1
  | .finished => 0

/-- The steps that a handshake has left at most. -/
def left (operation : InterpreterOperation.State) : Nat :=
  mainLeft operation.main + callbackLeft operation.callback + operation.lock.waiting.length

section

variable {operation moved : InterpreterOperation.State} {answer : Option (List BotResponse)}
  {lock : Monitor Thread}

/-- The first statement of `main` starts the callback; the others leave it alone. -/
theorem main_step_effect (h : InterpreterOperation.mainStep operation = some moved) :
    operation.main = .run ∧ moved = { operation with main := .lock, callback := .body } ∨
    operation.main ≠ .run ∧ ∃ main lock, moved = { operation with main, lock } ∧ main ≠ .run ∧
      mainLeft main + lock.waiting.length <
        mainLeft operation.main + operation.lock.waiting.length := by
  cases hmain : operation.main with
  | run =>
      simp only [InterpreterOperation.mainStep, hmain] at h
      cases h
      exact .inl ⟨rfl, rfl⟩
  | lock =>
      simp only [InterpreterOperation.mainStep, hmain] at h
      obtain ⟨lock, hlock, h⟩ := Option.bind_eq_some_iff.mp h
      cases h
      unfold Monitor.lock at hlock
      split at hlock <;> cases hlock
      refine .inr ⟨MainPoint.noConfusion, _, _, rfl, MainPoint.noConfusion, ?_⟩
      simp only [mainLeft]
      omega
  | wait =>
      simp only [InterpreterOperation.mainStep, hmain] at h
      obtain ⟨lock, hlock, h⟩ := Option.bind_eq_some_iff.mp h
      cases h
      unfold Monitor.wait at hlock
      split at hlock <;> cases hlock
      refine .inr ⟨MainPoint.noConfusion, _, _, rfl, MainPoint.noConfusion, ?_⟩
      simp only [mainLeft, List.length_append, List.length_singleton]
      omega
  | asleep =>
      simp only [InterpreterOperation.mainStep, hmain] at h
      obtain ⟨lock, hlock, h⟩ := Option.bind_eq_some_iff.mp h
      cases h
      unfold Monitor.reacquire at hlock
      split at hlock <;> cases hlock
      refine .inr ⟨MainPoint.noConfusion, _, _, rfl, MainPoint.noConfusion, ?_⟩
      simp only [mainLeft]
      omega
  | unlock =>
      simp only [InterpreterOperation.mainStep, hmain] at h
      obtain ⟨lock, hlock, h⟩ := Option.bind_eq_some_iff.mp h
      cases h
      unfold Monitor.unlock at hlock
      split at hlock <;> cases hlock
      refine .inr ⟨MainPoint.noConfusion, _, _, rfl, MainPoint.noConfusion, ?_⟩
      simp only [mainLeft]
      omega
  | returned =>
      simp only [InterpreterOperation.mainStep, hmain] at h
      cases h

/-- A thread that is woken waits no longer. -/
theorem length_waiting_wake {thread : Thread} (h : operation.lock.wake thread = some lock) :
    lock.waiting.length < operation.lock.waiting.length := by
  unfold Monitor.wake at h
  split at h <;> cases h
  rename_i hwaiting
  have hlength := List.length_erase_of_mem hwaiting
  have hpos := List.length_pos_of_mem hwaiting
  show (operation.lock.waiting.erase thread).length < _
  omega

/-- The callback leaves `main` alone, but for waking it. -/
theorem callback_step_effect
    (h : InterpreterOperation.callbackStep answer operation = some moved) :
    operation.callback ≠ .absent ∧ ∃ callback lock completed,
      moved = { operation with callback, lock, completed } ∧
      callback ≠ .absent ∧ callback ≠ .body ∧
      callbackLeft callback + lock.waiting.length <
        callbackLeft operation.callback + operation.lock.waiting.length := by
  cases hcallback : operation.callback with
  | absent =>
      simp only [InterpreterOperation.callbackStep, hcallback] at h
      cases h
  | body =>
      simp only [InterpreterOperation.callbackStep, hcallback] at h
      cases h
      refine ⟨CallbackPoint.noConfusion, _, _, _, rfl, CallbackPoint.noConfusion,
        CallbackPoint.noConfusion, ?_⟩
      simp only [callbackLeft]
      omega
  | lock =>
      simp only [InterpreterOperation.callbackStep, hcallback] at h
      obtain ⟨lock, hlock, h⟩ := Option.bind_eq_some_iff.mp h
      cases h
      unfold Monitor.lock at hlock
      split at hlock <;> cases hlock
      refine ⟨CallbackPoint.noConfusion, _, _, _, rfl, CallbackPoint.noConfusion,
        CallbackPoint.noConfusion, ?_⟩
      simp only [callbackLeft]
      omega
  | signal =>
      simp only [InterpreterOperation.callbackStep, hcallback] at h
      obtain ⟨lock, hlock, h⟩ := Option.bind_eq_some_iff.mp h
      cases h
      have hwaiting : lock.waiting.length ≤ operation.lock.waiting.length := by
        unfold Monitor.signal at hlock
        split at hlock
        · exact Nat.le_of_lt (length_waiting_wake hlock)
        · split at hlock <;> cases hlock
          exact Nat.le_refl _
      refine ⟨CallbackPoint.noConfusion, _, _, _, rfl, CallbackPoint.noConfusion,
        CallbackPoint.noConfusion, ?_⟩
      simp only [callbackLeft]
      omega
  | unlock =>
      simp only [InterpreterOperation.callbackStep, hcallback] at h
      obtain ⟨lock, hlock, h⟩ := Option.bind_eq_some_iff.mp h
      cases h
      unfold Monitor.unlock at hlock
      split at hlock <;> cases hlock
      refine ⟨CallbackPoint.noConfusion, _, _, _, rfl, CallbackPoint.noConfusion,
        CallbackPoint.noConfusion, ?_⟩
      simp only [callbackLeft]
      omega
  | finished =>
      simp only [InterpreterOperation.callbackStep, hcallback] at h
      cases h

theorem left_main_step (h : InterpreterOperation.mainStep operation = some moved) :
    left moved < left operation := by
  rcases main_step_effect h with ⟨hmain, rfl⟩ | ⟨-, main, lock, rfl, -, hless⟩
  · simp only [left, hmain, mainLeft, callbackLeft]
    omega
  · simp only [left]
    omega

theorem left_callback_step (h : InterpreterOperation.callbackStep answer operation = some moved) :
    left moved < left operation := by
  obtain ⟨-, callback, lock, completed, rfl, -, -, hless⟩ := callback_step_effect h
  simp only [left]
  omega

end

end AiGramLib.BotProcessor.Handshake
