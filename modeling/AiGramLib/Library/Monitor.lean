import Mathlib.Data.Option.Basic
import Mathlib.Data.List.Basic

/-!
# A mutex with one condition variable

A monitor has an owner, the threads asleep in `wait`, and the threads that were woken and
still have to take the mutex back. A signal wakes one sleeping thread and is lost when there
is none; a wake-up without a signal is the operation `wake`. An operation that the calling
thread cannot perform now is `none`.
-/

namespace Transition

/-- The state of a mutex and its condition variable, over threads in `τ`. -/
structure Monitor (τ : Type*) where
  owner : Option τ
  waiting : List τ
  woken : List τ
  deriving DecidableEq, Repr

namespace Monitor

variable {τ : Type*}

/-- A free mutex that no thread waits at. -/
def idle : Monitor τ := ⟨none, [], []⟩

variable [DecidableEq τ]

/-- Take the free mutex. -/
def lock (m : Monitor τ) (thread : τ) : Option (Monitor τ) :=
  if m.owner = none then some { m with owner := some thread } else none

/-- Release the mutex, which only its owner does. -/
def unlock (m : Monitor τ) (thread : τ) : Option (Monitor τ) :=
  if m.owner = some thread then some { m with owner := none } else none

/-- Release the mutex and fall asleep, in one step. -/
def wait (m : Monitor τ) (thread : τ) : Option (Monitor τ) :=
  if m.owner = some thread then
    some { m with owner := none, waiting := m.waiting ++ [thread] }
  else none

/-- Wake a sleeping thread without a signal. -/
def wake (m : Monitor τ) (thread : τ) : Option (Monitor τ) :=
  if thread ∈ m.waiting then
    some { m with waiting := m.waiting.erase thread, woken := m.woken ++ [thread] }
  else none

/-- Wake the sleeping thread `chosen`; with no sleeping thread a signal does nothing. -/
def signal (m : Monitor τ) (chosen : Option τ) : Option (Monitor τ) :=
  match chosen with
  | some thread => m.wake thread
  | none => if m.waiting = [] then some m else none

/-- Take the mutex back after a wake-up, so that the call of `wait` returns. -/
def reacquire (m : Monitor τ) (thread : τ) : Option (Monitor τ) :=
  if thread ∈ m.woken ∧ m.owner = none then
    some { m with owner := some thread, woken := m.woken.erase thread }
  else none

end Monitor

end Transition
