import AiGramLib.Library.Rest
import AiGramLib.Search.Newest

/-!
# Every search comes to its end

The operations on `searchQueue` and the main blocks end by themselves, in at most five steps for
each queued operation, and when nothing is left the last search has been answered: no schedule
of the work that is left can lose it or hold it up.
-/

namespace AiGramLib.Search

open Transition

variable {Text : Type}

/-- The steps of operations and main blocks. -/
def isWork : Action Text → Bool
  | .search _ | .append _ => false
  | .start | .proceed | .runBlock => true

/-- The steps that an operation at this stage and its main block take at most. -/
def Stage.left : Stage → Nat
  | .guard => 4
  | .filter => 3
  | .dispatch _ => 2

/-- The steps that are left at most. -/
def State.workLeft (s : State Text) : Nat :=
  5 * s.searchQueue.length + (s.running.map fun running => running.stage.left).getD 0 +
    s.main.length

variable [DecidableEq Text] {strings : StringOperations Text} {bots : List ChatBot}
  {s t : State Text} {action : Action Text}

theorem Step.work_left_lt (h : Step strings s action t) (hwork : isWork action = true) :
    t.workLeft < s.workLeft := by
  cases h with
  | searched text => cases hwork
  | appended newBot => cases hwork
  | started request rest hrunning hqueue =>
      simp only [State.workLeft, hrunning, hqueue, Option.map_some, Option.map_none,
        Option.getD_some, Option.getD_none, Stage.left, List.length_cons]
      omega
  | passed request hrunning hmatch => simp [State.workLeft, hrunning, Stage.left]
  | dropped request hrunning hmatch => simp [State.workLeft, hrunning, Stage.left]
  | filtered request hrunning => simp [State.workLeft, hrunning, Stage.left]
  | dispatched request result hrunning =>
      simp only [State.workLeft, hrunning, Option.map_some, Option.map_none, Option.getD_some,
        Option.getD_none, Stage.left, List.length_append, List.length_singleton]
      omega
  | ran block rest hmain =>
      simp only [State.workLeft, hmain, List.length_cons]
      omega

/-- Work makes no call. -/
theorem Step.calls_eq (h : Step strings s action t) (hwork : isWork action = true) :
    t.calls = s.calls := by
  cases h with
  | searched text => cases hwork
  | _ => rfl

/-- A pending main block can run, a running operation can go on, and a queued one can start when
none is running. -/
theorem exists_work (strings : StringOperations Text) (bots : List ChatBot)
    (hleft : ¬ s.Quiescent) :
    ∃ action t, isWork action = true ∧ (machine strings bots).next s action = some t := by
  cases hmain : s.main with
  | cons block rest => exact ⟨.runBlock, _, rfl, by simp only [machine, runBlock, hmain]; rfl⟩
  | nil =>
      cases hrunning : s.running with
      | some running =>
          obtain ⟨request, stage⟩ := running
          refine ⟨.proceed, ?_⟩
          cases stage with
          | guard =>
              by_cases hmatch : s.lastSearchText = some request.text <;>
                exact ⟨_, rfl, by simp [machine, proceed, hrunning, hmatch]; rfl⟩
          | filter => exact ⟨_, rfl, by simp [machine, proceed, hrunning]; rfl⟩
          | dispatch result => exact ⟨_, rfl, by simp [machine, proceed, hrunning]; rfl⟩
      | none =>
          cases hqueue : s.searchQueue with
          | nil => exact absurd ⟨hqueue, hrunning, hmain⟩ hleft
          | cons request rest =>
              exact ⟨.start, _, rfl, by simp only [machine, start, hrunning, hqueue]; rfl⟩

/-- Nothing is left to do, and the last of the calls has been answered with its own text. -/
def LastAnswered (calls : List Text) (s : State Text) : Prop :=
  s.Quiescent ∧ ∀ text, calls.getLast? = some text →
    ∃ answer ∈ s.answers, answer.block.request = ⟨calls.length - 1, text⟩

/-- The searches settle with an answer to the last one. -/
theorem settles (strings : StringOperations Text) (bots : List ChatBot) (calls : List Text) :
    (machine strings bots).Settles isWork (fun s => Ordered s ∧ s.calls = calls)
      State.workLeft (LastAnswered calls) where
  keeps := by
    rintro state action following ⟨hordered, hcalls⟩ hwork hnext
    have hstep := step_of_next hnext
    exact ⟨hordered.step (step_effect hstep), (hstep.calls_eq hwork).trans hcalls⟩
  lowers := fun _ hwork hnext => (step_of_next hnext).work_left_lt hwork
  goes_on := by
    rintro state ⟨hordered, rfl⟩ hleft
    refine exists_work strings bots fun hquiescent => hleft ⟨hquiescent, fun text htext => ?_⟩
    -- the newest request is in sight, and only answers are left
    have hnewest := hordered.newest text htext
    obtain ⟨hqueue, hrunning, hmain⟩ := hquiescent
    simp only [State.line, hqueue, hrunning, hmain, List.map_nil, Option.toList_none,
      List.append_nil] at hnewest
    exact List.mem_map.mp hnewest

/-- From every reachable state, the searches come to an end by themselves, after a bounded number
of steps and whatever the schedule, and then the last search has been answered. -/
theorem searches_come_to_rest (h : (machine strings bots).Reachable s) :
    (machine strings bots).ComesToRest isWork (LastAnswered s.calls) s ∧
    ∀ actions t, ((machine strings bots).restrict fun _ => isWork).run s actions = some t →
      actions.length ≤ 5 * s.searchQueue.length + 4 * s.running.toList.length + s.main.length := by
  have hsettles := settles strings bots s.calls
  have hstate : Ordered s ∧ s.calls = s.calls := ⟨ordered_of_reachable h, rfl⟩
  refine ⟨hsettles.comes_to_rest hstate, fun actions t hrun => ?_⟩
  have hlength := hsettles.length_le hstate hrun
  have hwork : s.workLeft ≤
      5 * s.searchQueue.length + 4 * s.running.toList.length + s.main.length := by
    unfold State.workLeft
    cases s.running with
    | none => simp
    | some running =>
        obtain ⟨request, stage⟩ := running
        cases stage <;> simp [Stage.left]
  omega

/-- Two searches of which the first is running: the second will be answered. -/
theorem searches_come_to_rest_run :
    ∃ s, (machine .ascii [.named "a"]).Reachable s ∧ s.searchQueue.length = 1 ∧
      (machine .ascii [.named "a"]).ComesToRest isWork (LastAnswered ["b", "a"]) s := by
  obtain ⟨s, hs, hqueue, hcalls⟩ := (machine .ascii [.named "a"]).exists_reachable
    [.search "b", .start, .proceed, .search "a"]
    (fun s => s.searchQueue.length = 1 ∧ s.calls = ["b", "a"]) (by decide)
  exact ⟨s, hs, hqueue, hcalls ▸ (searches_come_to_rest hs).1⟩

end AiGramLib.Search
