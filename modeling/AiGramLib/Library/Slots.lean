import Mathlib.Data.List.Count
import Mathlib.Data.List.Nodup
import Mathlib.Logic.Function.Basic

/-!
# Calls that wait under keys

An account of a table of callbacks. Calls are numbered as they come; a call is answered at
once or registered under a key, and serving a key answers the call that waits under it. No
call is lost and none is answered twice (`Accounted`) as long as nobody registers a call under
a key that is taken.
-/

namespace Slots

/-- The number of calls made, the call that waits under each key, and the answered calls. -/
structure State (κ : Type*) where
  calls : Nat
  waiting : κ → Option Nat
  answered : List Nat

variable {κ : Type*} {s : State κ} {key : κ}

namespace State

/-- A call is answered at once. -/
def answer (s : State κ) : State κ :=
  { s with calls := s.calls + 1, answered := s.answered ++ [s.calls] }

/-- A call waits under a key, in place of the one that waited there before. -/
def register [DecidableEq κ] (s : State κ) (key : κ) : State κ :=
  { s with calls := s.calls + 1, waiting := Function.update s.waiting key (some s.calls) }

/-- The call under a key, if there is one, is answered. -/
def serve [DecidableEq κ] (s : State κ) (key : κ) : State κ :=
  { s with
    waiting := Function.update s.waiting key none
    answered := s.answered ++ (s.waiting key).toList }

end State

/-- Every call has been answered, once, or waits, under one key. -/
structure Accounted (s : State κ) : Prop where
  waiting_lt : ∀ {key call}, s.waiting key = some call → call < s.calls
  answered_lt : ∀ {call}, call ∈ s.answered → call < s.calls
  nodup : s.answered.Nodup
  not_answered : ∀ {key call}, s.waiting key = some call → call ∉ s.answered
  unique : ∀ {key other call}, s.waiting key = some call → s.waiting other = some call →
    key = other
  all : ∀ {call}, call < s.calls → call ∈ s.answered ∨ ∃ key, s.waiting key = some call

namespace Accounted

theorem init : Accounted (⟨0, fun _ => none, []⟩ : State κ) where
  waiting_lt h := by cases h
  answered_lt h := by cases h
  nodup := List.nodup_nil
  not_answered h := by cases h
  unique h := by cases h
  all h := by cases h

theorem answer (h : Accounted s) : Accounted s.answer where
  waiting_lt hwaiting := Nat.lt_succ_of_lt (h.waiting_lt hwaiting)
  answered_lt hanswered := by
    rcases List.mem_append.mp hanswered with hold | hnew
    · exact Nat.lt_succ_of_lt (h.answered_lt hold)
    · rw [List.mem_singleton.mp hnew]
      exact Nat.lt_succ_self _
  nodup := by
    refine List.nodup_append.mpr ⟨h.nodup, List.nodup_singleton _, ?_⟩
    rintro call hold _ hnew rfl
    exact Nat.ne_of_lt (h.answered_lt hold) (List.mem_singleton.mp hnew)
  not_answered hwaiting hanswered := by
    rcases List.mem_append.mp hanswered with hold | hnew
    · exact h.not_answered hwaiting hold
    · exact Nat.ne_of_lt (h.waiting_lt hwaiting) (List.mem_singleton.mp hnew)
  unique := h.unique
  all hcall := by
    rcases Nat.lt_succ_iff_lt_or_eq.mp hcall with hold | rfl
    · exact (h.all hold).imp_left fun hanswered => List.mem_append_left _ hanswered
    · exact .inl (List.mem_append_right _ (List.mem_singleton.mpr rfl))

/-- When nobody is waiting, every call has been answered exactly once. -/
theorem count_eq_one (h : Accounted s) (hnone : ∀ key, s.waiting key = none) {call : Nat}
    (hcall : call < s.calls) : s.answered.count call = 1 := by
  rcases h.all hcall with hanswered | ⟨key, hwaiting⟩
  · exact List.count_eq_one_of_mem h.nodup hanswered
  · rw [hnone key] at hwaiting
    cases hwaiting

variable [DecidableEq κ]

/-- A call may be registered under a key under which none is waiting. -/
theorem register (h : Accounted s) (hfree : s.waiting key = none) :
    Accounted (s.register key) where
  waiting_lt {place call} hwaiting := by
    by_cases hplace : place = key
    · subst hplace
      simp only [State.register, Function.update_self, Option.some.injEq] at hwaiting
      exact hwaiting ▸ Nat.lt_succ_self _
    · simp only [State.register, Function.update_of_ne hplace] at hwaiting
      exact Nat.lt_succ_of_lt (h.waiting_lt hwaiting)
  answered_lt hanswered := Nat.lt_succ_of_lt (h.answered_lt hanswered)
  nodup := h.nodup
  not_answered {place call} hwaiting hanswered := by
    by_cases hplace : place = key
    · subst hplace
      simp only [State.register, Function.update_self, Option.some.injEq] at hwaiting
      exact Nat.ne_of_gt (h.answered_lt hanswered) hwaiting
    · simp only [State.register, Function.update_of_ne hplace] at hwaiting
      exact h.not_answered hwaiting hanswered
  unique {place other call} hwaiting hother := by
    by_cases hplace : place = key <;> by_cases hkey : other = key
    · exact hplace.trans hkey.symm
    · subst hplace
      simp only [State.register, Function.update_self, Option.some.injEq] at hwaiting
      simp only [State.register, Function.update_of_ne hkey] at hother
      exact absurd hwaiting (Nat.ne_of_gt (h.waiting_lt hother))
    · subst hkey
      simp only [State.register, Function.update_self, Option.some.injEq] at hother
      simp only [State.register, Function.update_of_ne hplace] at hwaiting
      exact absurd hother (Nat.ne_of_gt (h.waiting_lt hwaiting))
    · simp only [State.register, Function.update_of_ne hplace] at hwaiting
      simp only [State.register, Function.update_of_ne hkey] at hother
      exact h.unique hwaiting hother
  all {call} hcall := by
    rcases Nat.lt_succ_iff_lt_or_eq.mp hcall with hold | rfl
    · refine (h.all hold).imp_right ?_
      rintro ⟨place, hwaiting⟩
      have hplace : place ≠ key := by
        rintro rfl
        rw [hfree] at hwaiting
        cases hwaiting
      exact ⟨place, by simpa [State.register, hplace] using hwaiting⟩
    · exact .inr ⟨key, by simp [State.register]⟩

/-- Serving a key answers at most the call that waits there. -/
theorem serve (h : Accounted s) (key : κ) : Accounted (s.serve key) where
  waiting_lt {place call} hwaiting := by
    by_cases hplace : place = key
    · simp [State.serve, hplace] at hwaiting
    · simp only [State.serve, Function.update_of_ne hplace] at hwaiting
      exact h.waiting_lt hwaiting
  answered_lt hanswered := by
    rcases List.mem_append.mp hanswered with hold | hnew
    · exact h.answered_lt hold
    · exact h.waiting_lt (Option.mem_toList.mp hnew)
  nodup := by
    refine List.nodup_append.mpr ⟨h.nodup, ?_, ?_⟩
    · cases s.waiting key <;> simp
    · rintro call hold _ hnew rfl
      exact h.not_answered (Option.mem_toList.mp hnew) hold
  not_answered {place call} hwaiting hanswered := by
    by_cases hplace : place = key
    · simp [State.serve, hplace] at hwaiting
    · simp only [State.serve, Function.update_of_ne hplace] at hwaiting
      rcases List.mem_append.mp hanswered with hold | hnew
      · exact h.not_answered hwaiting hold
      · exact hplace (h.unique hwaiting (Option.mem_toList.mp hnew))
  unique {place other call} hwaiting hother := by
    have hplace : place ≠ key := by
      rintro rfl
      simp [State.serve] at hwaiting
    have hkey : other ≠ key := by
      rintro rfl
      simp [State.serve] at hother
    simp only [State.serve, Function.update_of_ne hplace] at hwaiting
    simp only [State.serve, Function.update_of_ne hkey] at hother
    exact h.unique hwaiting hother
  all {call} hcall := by
    rcases h.all hcall with hanswered | ⟨place, hwaiting⟩
    · exact .inl (List.mem_append_left _ hanswered)
    · by_cases hplace : place = key
      · subst hplace
        exact .inl (List.mem_append_right _ (Option.mem_toList.mpr hwaiting))
      · exact .inr ⟨place, by simpa [State.serve, hplace] using hwaiting⟩

end Accounted

end Slots
