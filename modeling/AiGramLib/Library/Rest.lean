import Mathlib.Algebra.GroupWithZero.Nat
import Mathlib.Data.List.Perm.Basic
import Mathlib.Order.WellFounded
import AiGramLib.Library.Machine

/-!
# Machines that come to rest

Some actions of a machine are its own: the steps of work that has been started, as opposed to the
calls that start new work. From a state a machine comes to rest if own steps can lead to rest, if
it cannot make own steps for ever, whichever it makes, and if it is at rest wherever it can make
none (`ComesToRest`). `Settles` is the rule for it: an invariant of the own steps, a measure in
a well-founded order that each of them lowers, and an own step from every state that is not at
rest. With a measure in the natural numbers the steps are bounded as well (`Settles.length_le`); it
is often the sum of what each of many parts has left (`sum_map_set`, `sum_map_eraseIdx`).
-/

namespace Transition.Machine

variable {σ α β : Type*}

/-- Own steps lead from this state to rest, whichever are made. -/
structure ComesToRest (M : Machine σ α) (own : α → Bool) (rest : σ → Prop) (state : σ) :
    Prop where
  can_rest : ∃ last, (M.restrict fun _ => own).Reaches state last ∧ rest last
  ends : ∀ states : Nat → σ, states 0 = state →
    ¬ ∀ n, ∃ action, own action = true ∧ M.next (states n) action = some (states (n + 1))
  at_rest : ∀ last, (M.restrict fun _ => own).Reaches state last →
    (∀ action, own action = true → M.next last action = none) → rest last

/-- Own steps keep the invariant `holds` and lower `work`, and there is one from every state
that is not at rest. -/
structure Settles [LT β] (M : Machine σ α) (own : α → Bool) (holds : σ → Prop) (work : σ → β)
    (rest : σ → Prop) : Prop where
  keeps : ∀ {state action following}, holds state → own action = true →
    M.next state action = some following → holds following
  lowers : ∀ {state action following}, holds state → own action = true →
    M.next state action = some following → work following < work state
  goes_on : ∀ {state}, holds state → ¬ rest state →
    ∃ action following, own action = true ∧ M.next state action = some following

variable {M : Machine σ α} {own : α → Bool} {holds rest : σ → Prop}

/-- The invariant holds wherever own steps lead. -/
theorem Settles.of_reaches [LT β] {work : σ → β} (h : Settles M own holds work rest)
    {state last : σ} (hstate : holds state)
    (hreaches : (M.restrict fun _ => own).Reaches state last) : holds last :=
  hreaches.restrict_induction hstate fun _ _ _ _ hmiddle hown hnext => h.keeps hmiddle hown hnext

/-- Some own steps lead to rest. -/
theorem Settles.exists_rest [LT β] [WellFoundedLT β] {work : σ → β}
    (h : Settles M own holds work rest) {state : σ} (hstate : holds state) :
    ∃ last, (M.restrict fun _ => own).Reaches state last ∧ rest last := by
  induction hwork : work state using WellFoundedLT.induction generalizing state with
  | _ left ih =>
      by_cases hrest : rest state
      · exact ⟨state, .refl state, hrest⟩
      · obtain ⟨action, following, hown, hnext⟩ := h.goes_on hstate hrest
        obtain ⟨last, hreaches, hlast⟩ := ih (work following)
          (hwork ▸ h.lowers hstate hown hnext) (h.keeps hstate hown hnext) rfl
        have hstep : (M.restrict fun _ => own).next state action = some following :=
          restrict_next_eq_some.mpr ⟨hown, hnext⟩
        exact ⟨last, (Reaches.step hstep).trans hreaches, hlast⟩

theorem Settles.comes_to_rest [LT β] [WellFoundedLT β] {work : σ → β}
    (h : Settles M own holds work rest) {state : σ} (hstate : holds state) :
    ComesToRest M own rest state where
  can_rest := h.exists_rest hstate
  ends := by
    intro states hfirst hsteps
    have hholds : ∀ n, holds (states n) := by
      intro n
      induction n with
      | zero => rwa [hfirst]
      | succ n ih =>
          obtain ⟨action, hown, hnext⟩ := hsteps n
          exact h.keeps ih hown hnext
    -- the measure cannot go down at every step
    obtain ⟨n, hn⟩ := WellFounded.not_rel_apply_succ (r := (· < ·)) fun n => work (states n)
    obtain ⟨action, hown, hnext⟩ := hsteps n
    exact hn (h.lowers (hholds n) hown hnext)
  at_rest := by
    intro last hlast hstuck
    by_contra hrest
    obtain ⟨action, following, hown, hnext⟩ := h.goes_on (h.of_reaches hstate hlast) hrest
    rw [hstuck action hown] at hnext
    cases hnext

/-- A run of own steps is no longer than the work it has done. -/
theorem Settles.length_le {work : σ → Nat} (h : Settles M own holds work rest)
    {actions : List α} {state last : σ} (hstate : holds state)
    (hrun : (M.restrict fun _ => own).run state actions = some last) :
    actions.length + work last ≤ work state := by
  induction actions generalizing state with
  | nil =>
      cases hrun
      simp
  | cons action actions ih =>
      obtain ⟨following, hstep, hrun⟩ := Option.bind_eq_some_iff.mp hrun
      obtain ⟨hown, hnext⟩ := restrict_next_eq_some.mp hstep
      have hrest := ih (h.keeps hstate hown hnext) hrun
      have hlower := h.lowers hstate hown hnext
      rw [List.length_cons]
      omega

/-- What a part has left is counted once. -/
theorem sum_map_eraseIdx (left : σ → Nat) {parts : List σ} {i : Nat} {part : σ}
    (hpart : parts[i]? = some part) :
    (parts.map left).sum = left part + ((parts.eraseIdx i).map left).sum := by
  obtain ⟨hi, rfl⟩ := List.getElem?_eq_some_iff.mp hpart
  have hsum := ((List.getElem_cons_eraseIdx_perm hi).map left).sum_nat
  rw [List.map_cons, List.sum_cons] at hsum
  exact hsum.symm

/-- When a part changes, the others count as before. -/
theorem sum_map_set (left : σ → Nat) {parts : List σ} {i : Nat} {part : σ}
    (hpart : parts[i]? = some part) (moved : σ) :
    ((parts.set i moved).map left).sum + left part = (parts.map left).sum + left moved := by
  rw [sum_map_eraseIdx left hpart]
  obtain ⟨hi, -⟩ := List.getElem?_eq_some_iff.mp hpart
  have hsum := ((List.set_perm_cons_eraseIdx hi moved).map left).sum_nat
  rw [List.map_cons, List.sum_cons] at hsum
  omega

end Transition.Machine
