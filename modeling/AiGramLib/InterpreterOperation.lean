import AiGramLib.Library.Machine
import AiGramLib.Library.Monitor
import AiGramLib.Entities

/-!
# The handshake of `InterpreterOperation`

`main` starts the interpreter and then sleeps in `lock.wait()` until the callback, on the
main thread, signals. Nothing but the signal says that the callback has finished: the wait
has no predicate around it. `handshake_correct` shows that the handshake works in the runs
in which `main` is asleep when the callback takes the lock and is not woken before that;
`handshake_not_correct` shows both ways in which it fails in other runs.
-/

namespace AiGramLib.InterpreterOperation

open Transition

/-- The two threads that use the operation's condition. -/
inductive Thread where
  | main
  | callback
  deriving DecidableEq, Repr

/-- The statement of `main` that the operation's thread executes next. -/
inductive MainPoint where
  /-- `interpreter.run(inputs:options:)` with the callback -/
  | run
  /-- `lock.lock()` -/
  | lock
  /-- `lock.wait()` -/
  | wait
  /-- Inside `lock.wait()`. -/
  | asleep
  /-- `lock.unlock()` -/
  | unlock
  | returned
  deriving DecidableEq, Repr

/-- The statement of the callback that the main thread executes next. -/
inductive CallbackPoint where
  /-- `run` has not been called yet. -/
  | absent
  /-- Everything up to the `defer` block: the responses and the call of `completion`. -/
  | body
  /-- `lock.lock()` -/
  | lock
  /-- `lock.signal()` -/
  | signal
  /-- `lock.unlock()` -/
  | unlock
  | finished
  deriving DecidableEq, Repr

structure State where
  main : MainPoint
  callback : CallbackPoint
  lock : Monitor Thread
  /-- What `completion` was called with, in order. -/
  completed : List (List BotResponse)
  deriving DecidableEq, Repr

inductive Action where
  | main
  | callback
  /-- `wait` returns although nobody signalled. -/
  | spuriousWakeup
  deriving DecidableEq, Repr

/-- The next statement of `main`. -/
def mainStep (s : State) : Option State :=
  match s.main with
  | .run => some { s with main := .lock, callback := .body }
  | .lock => do
      let lock ← s.lock.lock .main
      pure { s with main := .wait, lock }
  | .wait => do
      let lock ← s.lock.wait .main
      pure { s with main := .asleep, lock }
  | .asleep => do
      let lock ← s.lock.reacquire .main
      pure { s with main := .unlock, lock }
  | .unlock => do
      let lock ← s.lock.unlock .main
      pure { s with main := .returned, lock }
  | .returned => none

/-- The next statement of the callback. `answer` is what its body hands to `completion`, or
`none` when the run failed or its output could not be read. -/
def callbackStep (answer : Option (List BotResponse)) (s : State) : Option State :=
  match s.callback with
  | .absent => none
  | .body => some { s with callback := .lock, completed := s.completed ++ answer.toList }
  | .lock => do
      let lock ← s.lock.lock .callback
      pure { s with callback := .signal, lock }
  | .signal => do
      let lock ← s.lock.signal s.lock.waiting.head?
      pure { s with callback := .unlock, lock }
  | .unlock => do
      let lock ← s.lock.unlock .callback
      pure { s with callback := .finished, lock }
  | .finished => none

/-- One operation whose callback hands `answer` to `completion`. -/
def machine (answer : Option (List BotResponse)) : Machine State Action where
  start := { main := .run, callback := .absent, lock := .idle, completed := [] }
  next s
    | .main => mainStep s
    | .callback => callbackStep answer s
    | .spuriousWakeup => do
        let lock ← s.lock.wake .main
        pure { s with lock }

/-- `main` does not return before the callback has finished, and it is not left asleep by a
callback that has finished. -/
def HandshakeCorrect (s : State) : Prop :=
  (s.main = .returned → s.callback = .finished) ∧
    ¬ (s.callback = .finished ∧ Thread.main ∈ s.lock.waiting)

/-- `main` is asleep when the callback takes the lock, and the wait does not return by itself
before that. -/
def awaited (s : State) : Action → Bool
  | .callback => s.callback != .lock || s.lock.waiting.contains .main
  | .spuriousWakeup => [CallbackPoint.signal, .unlock, .finished].contains s.callback
  | .main => true

/-- The callback before it takes the lock, with what it has handed to `completion`. -/
inductive BeforeLock (answer : Option (List BotResponse)) :
    CallbackPoint → List (List BotResponse) → Prop where
  | body : BeforeLock answer .body []
  | lock : BeforeLock answer .lock answer.toList

/-- The states of the runs that meet `awaited`. Until `main` is asleep the callback has not
taken the lock; from then on `main` waits for the callback to release it. -/
inductive Phase (answer : Option (List BotResponse)) : State → Prop where
  | start : Phase answer ⟨.run, .absent, .idle, []⟩
  | taking {callback completed} : BeforeLock answer callback completed →
      Phase answer ⟨.lock, callback, .idle, completed⟩
  | holding {callback completed} : BeforeLock answer callback completed →
      Phase answer ⟨.wait, callback, ⟨some .main, [], []⟩, completed⟩
  | asleep {callback completed} : BeforeLock answer callback completed →
      Phase answer ⟨.asleep, callback, ⟨none, [.main], []⟩, completed⟩
  | signalling : Phase answer ⟨.asleep, .signal, ⟨some .callback, [.main], []⟩, answer.toList⟩
  | needless : Phase answer ⟨.asleep, .signal, ⟨some .callback, [], [.main]⟩, answer.toList⟩
  | signalled : Phase answer ⟨.asleep, .unlock, ⟨some .callback, [], [.main]⟩, answer.toList⟩
  | woken : Phase answer ⟨.asleep, .finished, ⟨none, [], [.main]⟩, answer.toList⟩
  | unlocking : Phase answer ⟨.unlock, .finished, ⟨some .main, [], []⟩, answer.toList⟩
  | returned : Phase answer ⟨.returned, .finished, .idle, answer.toList⟩

variable {answer : Option (List BotResponse)} {s next : State}

/-- A statement of `main` leads from phase to phase. -/
theorem Phase.main_step (h : Phase answer s) (hnext : mainStep s = some next) :
    Phase answer next := by
  cases h with
  | start =>
      cases hnext
      exact .taking .body
  | taking hbefore =>
      cases hnext
      exact .holding hbefore
  | holding hbefore =>
      cases hnext
      exact .asleep hbefore
  | asleep => cases hnext
  | signalling => cases hnext
  | needless => cases hnext
  | signalled => cases hnext
  | woken =>
      cases hnext
      exact .unlocking
  | unlocking =>
      cases hnext
      exact .returned
  | returned => cases hnext

/-- A statement of the callback leads from phase to phase if it takes the lock only while
`main` is asleep. -/
theorem Phase.callback_step (h : Phase answer s) (hok : awaited s .callback = true)
    (hnext : callbackStep answer s = some next) : Phase answer next := by
  cases h with
  | start => cases hnext
  | taking hbefore =>
      cases hbefore with
      | body =>
          cases hnext
          exact .taking .lock
      | lock => cases hok
  | holding hbefore =>
      cases hbefore with
      | body =>
          cases hnext
          exact .holding .lock
      | lock => cases hok
  | asleep hbefore =>
      cases hbefore with
      | body =>
          cases hnext
          exact .asleep .lock
      | lock =>
          cases hnext
          exact .signalling
  | signalling =>
      cases hnext
      exact .signalled
  | needless =>
      -- `main` was woken without a signal, so this one finds nobody
      cases hnext
      exact .signalled
  | signalled =>
      cases hnext
      exact .woken
  | woken => cases hnext
  | unlocking => cases hnext
  | returned => cases hnext

/-- A wake-up without a signal is harmless once the callback holds the lock. -/
theorem Phase.wakeup_step (h : Phase answer s) (hok : awaited s .spuriousWakeup = true)
    (hnext : (machine answer).next s .spuriousWakeup = some next) : Phase answer next := by
  cases h with
  | asleep hbefore => cases hbefore <;> cases hok
  | signalling =>
      cases hnext
      exact .needless
  | start => cases hnext
  | taking => cases hnext
  | holding => cases hnext
  | needless => cases hnext
  | signalled => cases hnext
  | woken => cases hnext
  | unlocking => cases hnext
  | returned => cases hnext

/-- Every state of a run that meets `awaited` is in one of the phases. -/
theorem phase_of_reachable (h : ((machine answer).restrict awaited).Reachable s) :
    Phase answer s := by
  refine h.restrict_induction .start fun state action following _ hphase hok hnext => ?_
  cases action with
  | main => exact hphase.main_step hnext
  | callback => exact hphase.callback_step hok hnext
  | spuriousWakeup => exact hphase.wakeup_step hok hnext

/-- In a run that meets `awaited`, what the callback hands to `completion` has arrived when
`main` returns. -/
theorem completed_of_returned (h : ((machine answer).restrict awaited).Reachable s)
    (hreturned : s.main = .returned) : s.completed = answer.toList := by
  cases phase_of_reachable h with
  | returned => rfl
  | _ => cases hreturned

/-- The states after the callback took the lock too early: its signal is lost, and `main`
will sleep without anybody left to wake it. -/
inductive Missed : State → Prop where
  | signal (completed) : Missed ⟨.lock, .signal, ⟨some .callback, [], []⟩, completed⟩
  | unlock (completed) : Missed ⟨.lock, .unlock, ⟨some .callback, [], []⟩, completed⟩
  | taking (completed) : Missed ⟨.lock, .finished, .idle, completed⟩
  | holding (completed) : Missed ⟨.wait, .finished, ⟨some .main, [], []⟩, completed⟩
  | asleep (completed) : Missed ⟨.asleep, .finished, ⟨none, [.main], []⟩, completed⟩

/-- Without a spurious wake-up there is no way out of the missed states. -/
theorem Missed.step (h : Missed s) {action : Action} (hsignals : action ≠ .spuriousWakeup)
    (hnext : (machine answer).next s action = some next) : Missed next := by
  cases action with
  | spuriousWakeup => exact absurd rfl hsignals
  | main =>
      cases h with
      | signal => cases hnext
      | unlock => cases hnext
      | taking =>
          cases hnext
          exact .holding _
      | holding =>
          cases hnext
          exact .asleep _
      | asleep => cases hnext
  | callback =>
      cases h with
      | signal =>
          cases hnext
          exact .unlock _
      | unlock =>
          cases hnext
          exact .taking _
      | taking => cases hnext
      | holding => cases hnext
      | asleep => cases hnext

/-- If the callback takes the lock before `main` does, then `main` never returns unless a wait
returns spuriously: the condition that `main` is asleep cannot be dropped. -/
theorem missed_signal_hangs {completed : List (List BotResponse)} {last : State}
    (h : ((machine answer).restrict fun _ action => action != .spuriousWakeup).Reaches
      ⟨.lock, .signal, ⟨some .callback, [], []⟩, completed⟩ last) :
    last.main ≠ .returned := by
  have hmissed : Missed last := by
    refine h.restrict_induction (.signal completed) ?_
    intro state action following _ hmissed hsignals hnext
    exact hmissed.step (by simpa using hsignals) hnext
  cases hmissed <;> exact MainPoint.noConfusion

/-- The handshake is correct in every run in which the callback takes the lock only while
`main` is asleep and no wait returns by itself before that. -/
theorem handshake_correct (h : ((machine answer).restrict awaited).Reachable s) :
    HandshakeCorrect s := by
  have hphase := phase_of_reachable h
  constructor
  · intro hreturned
    cases hphase with
    | returned => rfl
    | _ => cases hreturned
  · rintro ⟨hfinished, hasleep⟩
    cases hphase with
    | taking hbefore => cases hbefore <;> cases hfinished
    | holding hbefore => cases hbefore <;> cases hfinished
    | asleep hbefore => cases hbefore <;> cases hfinished
    | woken => cases hasleep
    | unlocking => cases hasleep
    | returned => cases hasleep
    | _ => cases hfinished

/-- The run in which `main` is asleep before the callback takes the lock, to its end. -/
theorem handshake_correct_run : ∃ s : State, s.main = .returned ∧ HandshakeCorrect s :=
  ⟨⟨.returned, .finished, .idle, [[]]⟩, rfl,
    @handshake_correct (some []) _
      ⟨[.main, .main, .main, .callback, .callback, .callback, .callback, .main, .main], rfl⟩⟩

/-- Both parts fail in other runs: `main` sleeps on after a callback that was quicker than its
`lock.lock()`, and after a wake-up without a signal it returns before the callback. -/
theorem handshake_not_correct :
    (∃ s, (machine (some [])).Reachable s ∧ s.callback = .finished ∧
      Thread.main ∈ s.lock.waiting) ∧
    (∃ s, (machine (some [])).Reachable s ∧ s.main = .returned ∧ s.callback ≠ .finished) := by
  refine ⟨⟨⟨.asleep, .finished, ⟨none, [.main], []⟩, [[]]⟩, ?_, rfl, by decide⟩,
    ⟨⟨.returned, .body, .idle, []⟩, ?_, rfl, by decide⟩⟩
  · exact ⟨[.main, .callback, .callback, .callback, .callback, .main, .main], rfl⟩
  · exact ⟨[.main, .main, .main, .spuriousWakeup, .main, .main], rfl⟩

end AiGramLib.InterpreterOperation
