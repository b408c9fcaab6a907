import Mathlib.Algebra.Order.BigOperators.Group.List
import Mathlib.Algebra.Order.Ring.Nat
import AiGramLib.Bots.Machine
import AiGramLib.Library.Rest

/-!
# Every call of `copyBot` returns

However their file operations are interleaved and whatever becomes of them, the calls that are
under way return and their main blocks run, in a bounded number of steps. The list of active
bots only grows meanwhile, at its end: a bot that is active keeps its place until the app stops.
-/

namespace AiGramLib

/-- The operations that a call at this stage still makes at most, with its main block. -/
def CopyStage.left : CopyStage → Nat
  | .guards => 7
  | .createFolder => 6
  | .probe => 5
  | .remove => 4
  | .copy => 3
  | .reload => 2
  | .returned _ => 0

/-- An operation brings a call closer to its return; the last one may dispatch a main block. -/
theorem copy_step_left_lt {bot : ChatBot} {fs : FileSystem} {stage : CopyStage}
    {outcome : Outcome} {effect : CopyEffect} (h : copyStep bot fs stage outcome = some effect) :
    effect.stage.left + effect.newBot.toList.length < stage.left := by
  cases stage with
  | guards =>
      simp only [copyStep] at h
      split at h
      · cases h; exact show 0 < 7 by decide
      · split at h <;> cases h
        · exact show 6 < 7 by decide
        · exact show 0 < 7 by decide
  | createFolder =>
      simp only [copyStep] at h
      split at h
      · cases h; exact show 5 < 6 by decide
      · split at h <;> cases h
        · exact show 5 < 6 by decide
        · exact show 0 < 6 by decide
  | probe =>
      simp only [copyStep] at h
      split at h <;> cases h
      · exact show 4 < 5 by decide
      · exact show 3 < 5 by decide
  | remove =>
      cases h
      exact show 3 < 4 by decide
  | copy =>
      simp only [copyStep] at h
      split at h <;> cases h
      · exact show 2 < 3 by decide
      · exact show 0 < 3 by decide
  | reload =>
      simp only [copyStep] at h
      split at h <;> cases h
      · exact show 1 < 2 by decide
      · exact show 0 < 2 by decide
  | returned copied => cases h

/-- Only a call that has returned has no operation left. -/
theorem exists_copy_step (bot : ChatBot) (fs : FileSystem) {stage : CopyStage}
    (h : ∀ copied, stage ≠ .returned copied) (outcome : Outcome) :
    ∃ effect, copyStep bot fs stage outcome = some effect := by
  cases stage with
  | returned copied => exact absurd rfl (h copied)
  | remove => exact ⟨_, rfl⟩
  | guards | createFolder | probe | copy | reload =>
      rw [← Option.isSome_iff_exists]
      simp only [copyStep]
      repeat' split
      all_goals rfl

namespace Bots

open Transition

/-- The file operations and main blocks of the calls under way. -/
def isWork : Action → Bool
  | .update _ | .launch _ _ _ | .copyBot _ => false
  | .step _ _ | .runBlock => true

/-- The operations and main blocks that are left at most. -/
def State.workLeft (s : State) : Nat :=
  (s.calls.map fun call => call.stage.left).sum + s.main.length

variable {documentDirectory : Bool} {first s t : State} {action : Action}

/-- What has happened to the active bots, and to the bots whose main blocks were pending. -/
structure Grown (first s : State) : Prop where
  bots : first.bots <+: s.bots
  main : ∀ newBot ∈ first.main,
    newBot ∈ s.main ∨ ∃ bot ∈ s.bots, bot.name = newBot.name
  calls : s.calls.length = first.calls.length

theorem Grown.refl (s : State) : Grown s s :=
  ⟨List.prefix_rfl, fun _ hnew => .inl hnew, rfl⟩

theorem Grown.step (h : Grown first s) {i : Nat} {outcome : Outcome}
    (hnext : Bots.step s i outcome = some t) : Grown first t := by
  obtain ⟨call, -, hnext⟩ := Option.bind_eq_some_iff.mp hnext
  obtain ⟨effect, -, hnext⟩ := Option.bind_eq_some_iff.mp hnext
  cases hnext
  refine ⟨h.bots, fun newBot hnew => ?_, by simpa using h.calls⟩
  rcases h.main newBot hnew with hpending | hactive
  · exact .inl (List.mem_append_left _ hpending)
  · exact .inr hactive

theorem Grown.runBlock (h : Grown first s) (hnext : Bots.runBlock s = some t) :
    Grown first t := by
  unfold Bots.runBlock at hnext
  split at hnext <;> cases hnext
  rename_i newBot rest hmain
  obtain ⟨hbefore, hadded⟩ := prefix_append_bot s.bots newBot
  refine ⟨h.bots.trans hbefore, fun other hother => ?_, h.calls⟩
  rcases h.main other hother with hpending | ⟨bot, hbot, hname⟩
  · rw [hmain] at hpending
    rcases List.mem_cons.mp hpending with rfl | hrest
    · exact .inr hadded
    · exact .inl hrest
  · exact .inr ⟨bot, hbefore.subset hbot, hname⟩

/-- All calls have returned, and no main block is pending. -/
def State.Quiescent (s : State) : Prop :=
  (∀ call ∈ s.calls, ∃ copied, call.stage = .returned copied) ∧ s.main = []

theorem step_work_left_lt {i : Nat} {outcome : Outcome} (hnext : Bots.step s i outcome = some t) :
    t.workLeft < s.workLeft := by
  obtain ⟨call, hcall, hnext⟩ := Option.bind_eq_some_iff.mp hnext
  obtain ⟨effect, heffect, hnext⟩ := Option.bind_eq_some_iff.mp hnext
  cases hnext
  have hleft := copy_step_left_lt heffect
  have hsum := Machine.sum_map_set (fun call => call.stage.left) hcall
    { call with stage := effect.stage }
  dsimp only at hsum
  simp only [State.workLeft, List.length_append]
  omega

/-- The copies settle: all calls have returned, and every bot they have loaded is active. -/
theorem settles (documentDirectory : Bool) (first : State) :
    (machine documentDirectory).Settles isWork (Grown first) State.workLeft
      fun t => t.Quiescent ∧ Grown first t where
  keeps := by
    intro state action following hstate hwork hnext
    cases action with
    | update | launch | copyBot => cases hwork
    | step i outcome => exact hstate.step hnext
    | runBlock => exact hstate.runBlock hnext
  lowers := by
    intro state action following _ hwork hnext
    cases action with
    | update | launch | copyBot => cases hwork
    | step i outcome => exact step_work_left_lt hnext
    | runBlock =>
        simp only [machine, Bots.runBlock] at hnext
        split at hnext <;> cases hnext
        rename_i newBot rest hmain
        simp only [State.workLeft, hmain, List.length_cons]
        omega
  goes_on := by
    intro state hstate hleft
    cases hmain : state.main with
    | cons newBot rest =>
        exact ⟨.runBlock, _, rfl, by simp only [machine, Bots.runBlock, hmain]; rfl⟩
    | nil =>
        by_cases hreturned : ∀ call ∈ state.calls, ∃ copied, call.stage = .returned copied
        · exact absurd ⟨⟨hreturned, hmain⟩, hstate⟩ hleft
        · obtain ⟨call, hcall, hgoing⟩ : ∃ call ∈ state.calls,
              ∀ copied, call.stage ≠ .returned copied := by simpa using hreturned
          obtain ⟨i, hi⟩ := List.mem_iff_getElem?.mp hcall
          obtain ⟨effect, heffect⟩ := exists_copy_step call.bot state.fs hgoing .ok
          exact ⟨.step i .ok, _, rfl, by simp [machine, Bots.step, hi, heffect]; rfl⟩

/-- From every state, the calls of `copyBot` that are under way return by themselves, whatever the
file operations do, after at most seven steps for each call and one for each main block that was
pending; the active bots keep their places, and the bots of those blocks are active in the end. -/
theorem copies_come_to_rest (documentDirectory : Bool) (s : State) :
    (machine documentDirectory).ComesToRest isWork (fun t => t.Quiescent ∧ Grown s t) s ∧
    ∀ actions t, ((machine documentDirectory).restrict fun _ => isWork).run s actions = some t →
      actions.length ≤ 7 * s.calls.length + s.main.length ∧ s.bots <+: t.bots := by
  have hsettles := settles documentDirectory s
  refine ⟨hsettles.comes_to_rest (.refl s), fun actions t hrun => ?_⟩
  have hlength := hsettles.length_le (.refl s) hrun
  have hcalls : (s.calls.map fun call => call.stage.left).sum ≤ 7 * s.calls.length := by
    have hle := List.sum_le_card_nsmul (s.calls.map fun call => call.stage.left) 7 (by
      intro left hleft
      obtain ⟨call, -, rfl⟩ := List.mem_map.mp hleft
      cases call.stage <;> simp [CopyStage.left])
    simpa [Nat.mul_comm] using hle
  unfold State.workLeft at hlength
  exact ⟨by omega, (hsettles.of_reaches (.refl s) ⟨actions, hrun⟩).bots⟩

end Bots

end AiGramLib
