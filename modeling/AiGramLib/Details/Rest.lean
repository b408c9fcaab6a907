import Mathlib.Algebra.Order.BigOperators.Group.List
import Mathlib.Algebra.Order.Ring.Nat
import AiGramLib.Details.Reported
import AiGramLib.Library.Rest

/-!
# Every server call is answered in the end

Once the server answers, or fails to, the chains of requests and main blocks that a call starts
come to an end by themselves: a vote leads to a refresh, a refresh to a block that passes its
table on and one that stores it, and nothing leads back. `calls_come_to_rest` bounds the steps
and says what has been reached then.
-/

namespace AiGramLib.Details

open Transition

/-- The answers of the server and the main blocks. -/
def isWork : Action → Bool
  | .sendFirstStartIfNeeded _ | .rateBot _ _ _ | .enableBot _ _ _ | .isBotRatedBy _ _ => false
  | .respond _ _ _ | .runBlock => true

/-- The answers and blocks that an open request can still lead to, with its own. -/
def Handler.left : Handler → Nat
  | .firstStart | .vote _ | .enabling _ => 4
  | .details _ => 3
  | .voting _ => 2

/-- The blocks that a main block can still lead to, with itself. -/
def Block.left : Block → Nat
  | .received _ _ => 2
  | .store _ _ _ | .voteFailed _ _ | .enablingFailed _ | .rated _ _ => 1

/-- The answers and blocks that are left at most. -/
def State.workLeft (s : State) : Nat :=
  (s.tasks.map fun task => task.handler.left).sum + (s.main.map Block.left).sum

variable {s t : State} {enabledBots : AList fun _ : ChatBotId => Bool} {wasStartedBefore : Bool}
  {action : Action}

theorem work_left_request (s : State) (function : String) (handler : Handler) :
    (request s function handler).workLeft = s.workLeft + handler.left := by
  simp only [State.workLeft, request, List.map_append, List.map_cons, List.map_nil,
    List.sum_append, List.sum_cons, List.sum_nil]
  omega

theorem work_left_dispatch (s : State) (block : Block) :
    (dispatch s block).workLeft = s.workLeft + block.left := by
  simp only [State.workLeft, dispatch, List.map_append, List.map_cons, List.map_nil,
    List.sum_append, List.sum_cons, List.sum_nil]
  omega

/-- A handler leads to less than its request was good for. -/
theorem work_left_handle (s : State) (handler : Handler) (data : Option Payload)
    (error : Option String) :
    (handle s handler data error).workLeft < s.workLeft + handler.left := by
  have hrefresh : ∀ (s : State) (caller : Caller),
      (getTreshovieBots s caller).workLeft = s.workLeft + 3 := fun s caller =>
    work_left_request s "getBotsInfo" (.details ⟨s.started, caller⟩)
  cases handler with
  | firstStart =>
      cases error with
      | none =>
          have h := hrefresh { s with wasStartedBefore := true } .firstStart
          exact h ▸ Nat.lt_succ_self _
      | some error => exact Nat.lt_add_of_pos_right (by decide)
  | vote call =>
      cases error with
      | none =>
          have h := hrefresh { s with ended := s.ended ++ [⟨call, none, s.started⟩] } (.rate call)
          exact h ▸ Nat.lt_succ_self _
      | some error =>
          have h := work_left_dispatch
            { s with ended := s.ended ++ [⟨call, some error, s.started⟩] } (.voteFailed call error)
          exact h ▸ Nat.add_lt_add_left (show 1 < 4 by decide) s.workLeft
  | enabling call =>
      cases error with
      | none =>
          have h := hrefresh { s with ended := s.ended ++ [⟨call, none, s.started⟩] } (.enable call)
          exact h ▸ Nat.lt_succ_self _
      | some error =>
          have h := work_left_dispatch
            { s with ended := s.ended ++ [⟨call, some error, s.started⟩] } (.enablingFailed call)
          exact h ▸ Nat.add_lt_add_left (show 1 < 4 by decide) s.workLeft
  | voting call =>
      have h := work_left_dispatch s (.rated call (decodeRated data))
      exact h ▸ Nat.add_lt_add_left (show 1 < 2 by decide) s.workLeft
  | details refresh =>
      have h := work_left_dispatch s (.received refresh (decodeDetails data error))
      exact h ▸ Nat.add_lt_add_left (show 2 < 3 by decide) s.workLeft

/-- So does a main block. -/
theorem work_left_run_main (s : State) (block : Block) :
    (runMain s block).workLeft < s.workLeft + block.left := by
  have hpos : ∀ block : Block, 0 < block.left := fun block => by
    cases block <;> exact Nat.succ_pos _
  cases block with
  | received refresh outcome =>
      obtain ⟨number, caller⟩ := refresh
      cases caller with
      | start => exact Nat.lt_add_of_pos_right (hpos _)
      | _ =>
          exact (work_left_dispatch s _).trans_lt (Nat.add_lt_add_left (show 1 < 2 by decide) _)
  | store refresh outcome result =>
      obtain ⟨number, caller⟩ := refresh
      cases caller <;> exact Nat.lt_add_of_pos_right (hpos _)
  | voteFailed | enablingFailed | rated => exact Nat.lt_add_of_pos_right (hpos _)

/-- The work of a task is counted once. -/
theorem work_left_erase {i : Nat} {task : DataTask} (htask : s.tasks[i]? = some task) :
    s.workLeft = ({ s with tasks := s.tasks.eraseIdx i } : State).workLeft + task.handler.left := by
  have hsum := Machine.sum_map_eraseIdx (fun task => task.handler.left) htask
  simp only [State.workLeft, hsum]
  omega

theorem Step.work_left_lt (h : Step s action t) (hwork : isWork action = true) :
    t.workLeft < s.workLeft := by
  cases h with
  | startedBefore | firstStart | rateBot | enableBot | isBotRatedBy => cases hwork
  | responded i data error task htask =>
      rw [work_left_erase htask]
      exact work_left_handle ..
  | ran block rest hmain =>
      have hhead : s.workLeft = ({ s with main := rest } : State).workLeft + block.left := by
        simp only [State.workLeft, hmain, List.map_cons, List.sum_cons]
        omega
      rw [hhead]
      exact work_left_run_main ..

/-- Work makes no call. -/
theorem Step.calls_eq (h : Step s action t) (hwork : isWork action = true) :
    t.calls = s.calls := by
  cases h with
  | startedBefore | firstStart | rateBot | enableBot | isBotRatedBy => cases hwork
  | responded i data error task htask => exact (handle_frame ..).2.2.2.1
  | ran block rest hmain => exact (run_main_frame ..).2.2.1

/-- Nothing is pending, and each of the first calls has been answered once. -/
def AllReported (calls : Nat) (s : State) : Prop :=
  s.Quiescent ∧ ∀ call < calls, (s.answers.map Answer.call).count call = 1

/-- The server calls settle with an answer to each. -/
theorem settles (enabledBots : AList fun _ : ChatBotId => Bool) (wasStartedBefore : Bool)
    (calls : List Kind) :
    (machine enabledBots wasStartedBefore).Settles isWork
      (fun s => Accounted s ∧ s.calls = calls) State.workLeft (AllReported calls.length) where
  keeps := by
    rintro state action following ⟨haccounted, hcalls⟩ hwork hnext
    have hstep := step_of_next hnext
    exact ⟨haccounted.step hstep, (hstep.calls_eq hwork).trans hcalls⟩
  lowers := fun _ hwork hnext => (step_of_next hnext).work_left_lt hwork
  goes_on := by
    rintro state ⟨haccounted, rfl⟩ hleft
    cases hmain : state.main with
    | cons block rest => exact ⟨.runBlock, _, rfl, by simp only [machine, hmain]; rfl⟩
    | nil =>
        cases htasks : state.tasks with
        | cons task rest => exact ⟨.respond 0 none none, _, rfl, by simp [machine, htasks]; rfl⟩
        | nil =>
            refine absurd ⟨⟨htasks, hmain⟩, fun call hcall => ?_⟩ hleft
            -- the only place left for a call is among the answers
            have hcount := haccounted.count call
            simpa [State.places, htasks, hmain, hcall] using hcount

/-- From every reachable state, whatever the server answers and in whatever order, the requests
and blocks come to an end after a bounded number of steps, and then every call that was made has
been answered once. -/
theorem calls_come_to_rest (h : (machine enabledBots wasStartedBefore).Reachable s) :
    (machine enabledBots wasStartedBefore).ComesToRest isWork (AllReported s.calls.length) s ∧
    ∀ actions t,
      ((machine enabledBots wasStartedBefore).restrict fun _ => isWork).run s actions = some t →
      actions.length ≤ 4 * s.tasks.length + 2 * s.main.length := by
  have hsettles := settles enabledBots wasStartedBefore s.calls
  have hstate : Accounted s ∧ s.calls = s.calls := ⟨(recorded_of_reachable h).1, rfl⟩
  refine ⟨hsettles.comes_to_rest hstate, fun actions t hrun => ?_⟩
  have hlength := hsettles.length_le hstate hrun
  have htasks : (s.tasks.map fun task => task.handler.left).sum ≤ 4 * s.tasks.length := by
    have hle := List.sum_le_card_nsmul (s.tasks.map fun task => task.handler.left) 4 (by
      intro left hleft
      obtain ⟨task, -, rfl⟩ := List.mem_map.mp hleft
      cases task.handler <;> simp [Handler.left])
    simpa [Nat.mul_comm] using hle
  have hmain : (s.main.map Block.left).sum ≤ 2 * s.main.length := by
    have hle := List.sum_le_card_nsmul (s.main.map Block.left) 2 (by
      intro left hleft
      obtain ⟨block, -, rfl⟩ := List.mem_map.mp hleft
      cases block <;> simp [Block.left])
    simpa [Nat.mul_comm] using hle
  unfold State.workLeft at hlength
  omega

/-- A vote and a switch, of which the vote has been answered: both will be reported. -/
theorem calls_come_to_rest_run :
    ∃ s, (machine ∅ true).Reachable s ∧ s.tasks.length = 3 ∧
      (machine ∅ true).ComesToRest isWork (AllReported 2) s := by
  obtain ⟨s, hs, htasks, hcalls⟩ := (machine ∅ true).exists_reachable
    [.rateBot (.named "a") 5 1, .enableBot (.named "a") false 1, .respond 1 none none]
    (fun s => s.tasks.length = 3 ∧ s.calls.length = 2) (by decide)
  exact ⟨s, hs, htasks, hcalls ▸ (calls_come_to_rest hs).1⟩

end AiGramLib.Details
