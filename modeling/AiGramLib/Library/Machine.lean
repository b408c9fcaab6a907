import Mathlib.Data.Option.Basic
import Mathlib.Data.List.Induction

/-!
# Labelled machines and their runs

A machine has a start state and a partial step function on labelled actions: whatever a
real system leaves open (a schedule, an answer of the environment, an outcome of a file
operation) is part of the label, so runs can be evaluated. A run is a list of actions.
`Reaches.invariant` is the induction rule for safety results, and `run_induction` the one for
results about what has happened in a run; `restrict` cuts a machine down to the runs whose steps
all meet a condition, with `Reaches.restrict_induction` as its rule. A part of the state makes a
run of its own (`Reaches.project`). A state often keeps its parts in a list, in which a step
replaces or erases one (`mem_set_or_eq`, `mem_erase_idx_or_eq`).
-/

namespace Transition

/-- A machine with states in `σ` and labelled actions in `α`. `next` is `none` where the
action is not enabled. -/
structure Machine (σ α : Type*) where
  start : σ
  next : σ → α → Option σ

namespace Machine

variable {σ α : Type*} (M : Machine σ α)

/-- Take the actions in order; an action that is not enabled stops the run. -/
def run : σ → List α → Option σ
  | state, [] => some state
  | state, action :: rest => M.next state action >>= fun following => run following rest

/-- Some run leads from the first state to the second. -/
def Reaches (first last : σ) : Prop :=
  ∃ actions, M.run first actions = some last

/-- Some run from the start leads to this state. -/
def Reachable (state : σ) : Prop :=
  M.Reaches M.start state

/-- The machine whose steps are the steps of `M` that meet the condition `ok` on the state
before the step and the action. -/
def restrict (ok : σ → α → Bool) : Machine σ α where
  start := M.start
  next state action := if ok state action then M.next state action else none

variable {M}

/-- Running two action lists in a row is running their concatenation. -/
theorem run_append (first second : List α) (state : σ) :
    M.run state (first ++ second) = M.run state first >>= fun middle => M.run middle second := by
  induction first generalizing state with
  | nil => rfl
  | cons action rest ih =>
      simp only [List.cons_append, run]
      cases M.next state action with
      | none => rfl
      | some following => exact ih following

theorem Reaches.refl (state : σ) : M.Reaches state state :=
  ⟨[], rfl⟩

theorem Reaches.trans {first middle last : σ} (h : M.Reaches first middle)
    (hrest : M.Reaches middle last) : M.Reaches first last := by
  obtain ⟨actions, hactions⟩ := h
  obtain ⟨rest, hrest⟩ := hrest
  exact ⟨actions ++ rest, by rw [run_append, hactions]; exact hrest⟩

theorem Reaches.step {first last : σ} {action : α} (h : M.next first action = some last) :
    M.Reaches first last :=
  ⟨[action], by simp [run, h]⟩

/-- Induction along a run, about the actions taken so far and the state that they lead to. -/
theorem run_induction {first last : σ} {actions : List α} {P : List α → σ → Prop}
    (h : M.run first actions = some last) (hfirst : P [] first)
    (hstep : ∀ actions action state following, M.run first actions = some state →
      P actions state → M.next state action = some following →
      P (actions ++ [action]) following) : P actions last := by
  induction actions using List.reverseRecOn generalizing last with
  | nil =>
      cases h
      exact hfirst
  | append_singleton actions action ih =>
      rw [run_append] at h
      -- the last action is split off, so that the state before it is one that is reached
      obtain ⟨middle, hmiddle, hlast⟩ := Option.bind_eq_some_iff.mp h
      have hnext : M.next middle action = some last := by simpa [run] using hlast
      exact hstep actions action middle last hmiddle (ih hmiddle) hnext

/-- Induction along a run, with the state before each step known to be reached. -/
theorem Reaches.induction {first last : σ} {P : σ → Prop} (h : M.Reaches first last)
    (hfirst : P first)
    (hstep : ∀ state action following, M.Reaches first state → P state →
      M.next state action = some following → P following) : P last := by
  obtain ⟨actions, hrun⟩ := h
  exact run_induction (P := fun _ state => P state) hrun hfirst
    fun actions action state following hrun => hstep state action following ⟨actions, hrun⟩

/-- What the first state has and every step keeps, the last state has. -/
theorem Reaches.invariant {first last : σ} {P : σ → Prop} (h : M.Reaches first last)
    (hfirst : P first)
    (hstep : ∀ state action following, P state →
      M.next state action = some following → P following) : P last :=
  h.induction hfirst fun state action following _ => hstep state action following

/-- A part of the state that takes a step of its own, or none, whenever the whole takes one, has
made a run of its own. `P` is what the steps of the whole keep. -/
theorem Reaches.project {τ β : Type*} {N : Machine τ β} {first last : σ}
    (h : M.Reaches first last) (part : σ → τ) (P : σ → Prop) (hfirst : P first)
    (hstep : ∀ state action following, P state → M.next state action = some following →
      P following ∧ (part following = part state ∨
        ∃ own, N.next (part state) own = some (part following))) :
    N.Reaches (part first) (part last) := by
  refine (h.invariant (P := fun state => P state ∧ N.Reaches (part first) (part state))
    ⟨hfirst, .refl _⟩ fun state action following hstate hnext => ?_).2
  obtain ⟨hkept, hpart⟩ := hstep state action following hstate.1 hnext
  refine ⟨hkept, ?_⟩
  rcases hpart with hsame | ⟨own, hown⟩
  · rw [hsame]
    exact hstate.2
  · exact hstate.2.trans (.step hown)

/-- Evaluating a run to a state with a decidable property shows that one is reachable. -/
theorem exists_reachable (M : Machine σ α) (actions : List α) (P : σ → Prop) [DecidablePred P]
    (h : ((M.run M.start actions).any fun state => decide (P state)) = true) :
    ∃ state, M.Reachable state ∧ P state := by
  obtain ⟨state, hrun, hstate⟩ := (Option.any_eq_true _ _).mp h
  exact ⟨state, ⟨actions, hrun⟩, of_decide_eq_true hstate⟩

variable {ok : σ → α → Bool}

/-- A step of the restricted machine is a step that meets the condition. -/
theorem restrict_next_eq_some {state following : σ} {action : α} :
    (M.restrict ok).next state action = some following ↔
      ok state action = true ∧ M.next state action = some following := by
  simp [restrict]

/-- A condition that is always met restricts nothing. -/
theorem restrict_true : (M.restrict fun _ _ => true) = M :=
  rfl

/-- A run of the restricted machine is a run of the machine. -/
theorem Reaches.of_restrict {first last : σ} (h : (M.restrict ok).Reaches first last) :
    M.Reaches first last :=
  h.invariant (Reaches.refl first) fun _ _ _ hreach hnext =>
    hreach.trans (.step (restrict_next_eq_some.mp hnext).2)

/-- Induction along a run whose steps all meet the condition. -/
theorem Reaches.restrict_induction {first last : σ} {P : σ → Prop}
    (h : (M.restrict ok).Reaches first last) (hfirst : P first)
    (hstep : ∀ state action following, M.Reaches first state → P state →
      ok state action = true → M.next state action = some following → P following) : P last :=
  h.induction hfirst fun state action following hreach hstate hnext =>
    hstep state action following hreach.of_restrict hstate (restrict_next_eq_some.mp hnext).1
      (restrict_next_eq_some.mp hnext).2

/-- A run whose steps meet a condition meets every weaker one. -/
theorem Reaches.restrict_mono {first last : σ} {weaker : σ → α → Bool}
    (h : (M.restrict ok).Reaches first last)
    (hweaker : ∀ state action, ok state action = true → weaker state action = true) :
    (M.restrict weaker).Reaches first last :=
  h.restrict_induction (Reaches.refl first) fun _ _ _ _ hreach hok hnext =>
    hreach.trans (.step (restrict_next_eq_some.mpr ⟨hweaker _ _ hok, hnext⟩))

end Machine

/-- Replacing the element at an index loses that element only. -/
theorem mem_set_or_eq {α : Type*} {list : List α} {i : Nat} {element old : α}
    (h : element ∈ list) (hold : list[i]? = some old) (new : α) :
    element ∈ list.set i new ∨ element = old := by
  obtain ⟨j, hj⟩ := List.mem_iff_getElem?.mp h
  by_cases hij : i = j
  · subst hij
    exact .inr (Option.some.inj (hj.symm.trans hold))
  · exact .inl (List.mem_iff_getElem?.mpr ⟨j, by rw [List.getElem?_set_ne hij, hj]⟩)

/-- Erasing the element at an index loses that element only. -/
theorem mem_erase_idx_or_eq {α : Type*} {list : List α} {i : Nat} {element old : α}
    (h : element ∈ list) (hold : list[i]? = some old) :
    element ∈ list.eraseIdx i ∨ element = old := by
  obtain ⟨j, hj⟩ := List.mem_iff_getElem?.mp h
  by_cases hij : j = i
  · subst hij
    exact .inr (Option.some.inj (hj.symm.trans hold))
  · exact .inl (List.mem_eraseIdx_iff_getElem?.mpr ⟨j, hij, hj⟩)

end Transition
