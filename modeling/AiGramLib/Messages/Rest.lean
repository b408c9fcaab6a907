import Mathlib.Data.Prod.Lex
import AiGramLib.Library.Rest
import AiGramLib.Messages.Order

/-!
# Every request is worked off

Whatever has been called, the operations and main blocks of `handleMessages` come to an end by
themselves: the bots' operations cannot block each other at the lock around `results`, and the
end of one request's group lets the next request start. An operation has as many steps as there
are bots to ask, which is known only when it starts, so the measure is a pair: the stages that
the requests have still to go through, and the steps that the running group has left.

The `process` of a bot is a function here, so it is taken to return; its own handshakes decide
whether it does.
-/

namespace AiGramLib.Messages

open Transition

variable {Message : Type}

/-- The steps of operations and main blocks. -/
def isWork : Action Message → Bool
  | .handleMessages _ => false
  | .start _ _ | .work _ | .finish | .runBlock => true

/-- What a step of an operation or a main block finds, and what it leaves. -/
inductive Work (process : ChatBot → List Message → ChatBotResult) (s : State Message) :
    State Message → Prop where
  | started (bots : List ChatBot) (botEnableStates : ChatBotId → Option Bool)
      (request : Request Message) (rest : List (Request Message)) (hrunning : s.running = none)
      (hqueue : s.queue = request :: rest) :
      Work process s { s with
        queue := rest
        running := some {
          request, bots, botEnableStates
          localQueue := .spawn (bots.filter (isBotEnabled botEnableStates)) } }
  | worked (i : Nat) (running : Running Message)
      (localQueue : LockedAppend.State ChatBot ChatBotResult)
      (hrunning : s.running = some running)
      (hstep : LockedAppend.step (botBlock process running.request.messages)
        running.localQueue i = some localQueue) :
      Work process s { s with running := some { running with localQueue } }
  | finished (running : Running Message) (hrunning : s.running = some running)
      (hfinished : running.localQueue.allFinished = true) :
      Work process s { s with
        running := none
        main := s.main ++ [{
          request := running.request
          bots := running.bots
          botEnableStates := running.botEnableStates
          order := running.localQueue.order
          results := running.localQueue.shared }] }
  | ran (block : Block Message) (rest : List (Block Message))
      (lastMessages : Option (List Message)) (answers : List (Answer Message))
      (hmain : s.main = block :: rest) :
      Work process s { s with main := rest, handled := s.handled + 1, lastMessages, answers }

variable {calls : List (Call Message)} {process : ChatBot → List Message → ChatBotResult}
  {s t : State Message} {action : Action Message}

theorem work_of_next [DecidableEq Message] (hwork : isWork action = true)
    (h : (machine process).next s action = some t) : Work process s t := by
  cases action with
  | handleMessages messages => cases hwork
  | start bots botEnableStates =>
      simp only [machine, start] at h
      split at h <;> cases h
      rename_i request rest hrunning hqueue
      exact .started bots botEnableStates request rest hrunning hqueue
  | work i =>
      obtain ⟨running, hrunning, h⟩ := Option.bind_eq_some_iff.mp h
      obtain ⟨localQueue, hstep, h⟩ := Option.bind_eq_some_iff.mp h
      cases h
      exact .worked i running localQueue hrunning hstep
  | finish =>
      obtain ⟨running, hrunning, h⟩ := Option.bind_eq_some_iff.mp h
      split at h <;> cases h
      rename_i hfinished
      exact .finished running hrunning hfinished
  | runBlock =>
      simp only [machine, runBlock] at h
      split at h
      · cases h
      · rename_i block rest hmain
        split at h <;> cases h <;> exact .ran block rest _ _ hmain

/-- The stages ahead of the unfinished requests, and the steps ahead of the running group. -/
def State.workLeft (s : State Message) : Nat ×ₗ Nat :=
  toLex (3 * s.queue.length + 2 * s.running.toList.length + s.main.length,
    (s.running.map fun running => running.localQueue.left).getD 0)

/-- A request goes from the queue into its group, from there into a main block, and through it
out of sight; in between, the steps of its group lower the second component. -/
theorem Work.work_left_lt (h : Work process s t) : t.workLeft < s.workLeft := by
  cases h with
  | started bots botEnableStates request rest hrunning hqueue =>
      refine Prod.Lex.left _ _ ?_
      simp only [hrunning, hqueue, Option.toList_some, Option.toList_none, List.length_cons,
        List.length_nil]
      omega
  | worked i running localQueue hrunning hstep =>
      obtain ⟨worker, hworker, hstep⟩ := LockedAppend.step_of_next hstep
      have hleft := hstep.left_lt hworker
      simp only [State.workLeft, hrunning, Option.toList_some, List.length_singleton,
        Option.map_some, Option.getD_some]
      exact Prod.Lex.right _ hleft
  | finished running hrunning hfinished =>
      refine Prod.Lex.left _ _ ?_
      simp only [hrunning, Option.toList_some, Option.toList_none, List.length_append,
        List.length_singleton, List.length_nil]
      omega
  | ran block rest lastMessages answers hmain =>
      refine Prod.Lex.left _ _ ?_
      simp only [hmain, List.length_cons]
      omega

/-- What work keeps: the calls that have been made, the order of their requests, and a lock that
is taken only by a bot's operation between its `lock` and `unlock`. -/
structure Workable (calls : List (Call Message)) (s : State Message) : Prop where
  calls : s.calls = calls
  ordered : Ordered s
  held : ∀ running, s.running = some running → LockedAppend.Held running.localQueue

/-- Work makes no call. -/
theorem Work.calls_eq (h : Work process s t) : t.calls = s.calls := by
  cases h <;> rfl

theorem Work.held (h : Work process s t)
    (hheld : ∀ running, s.running = some running → LockedAppend.Held running.localQueue)
    (after : Running Message) (hafter : t.running = some after) :
    LockedAppend.Held after.localQueue := by
  cases h with
  | started bots botEnableStates request rest hrunning hqueue =>
      cases hafter
      exact LockedAppend.held_spawn _
  | worked i running localQueue hrunning hstep =>
      cases hafter
      exact (hheld running hrunning).step hstep
  | finished running hrunning hfinished => cases hafter
  | ran block rest lastMessages answers hmain => exact hheld after hafter

variable [DecidableEq Message]

/-- A queued operation can start when none is running, a running one can go on or end, and a
pending main block can run. -/
theorem exists_work (process : ChatBot → List Message → ChatBotResult)
    (hheld : ∀ running, s.running = some running → LockedAppend.Held running.localQueue)
    (hleft : ¬ s.Quiescent) :
    ∃ action t, isWork action = true ∧ (machine process).next s action = some t := by
  cases hmain : s.main with
  | cons block rest =>
      refine ⟨.runBlock, ?_⟩
      simp only [machine, runBlock, hmain]
      split <;> exact ⟨_, rfl, rfl⟩
  | nil =>
      cases hrunning : s.running with
      | some running =>
          cases hfinished : running.localQueue.allFinished with
          | true => exact ⟨.finish, _, rfl, by simp [machine, finish, hrunning, hfinished]; rfl⟩
          | false =>
              obtain ⟨i, localQueue, hstep⟩ := LockedAppend.exists_step (hheld running hrunning)
                (botBlock process running.request.messages) hfinished
              exact ⟨.work i, _, rfl, by simp [machine, work, hrunning, hstep]; rfl⟩
      | none =>
          cases hqueue : s.queue with
          | nil => exact absurd ⟨hqueue, hrunning, hmain⟩ hleft
          | cons request rest =>
              exact ⟨.start [] fun _ => none, _, rfl, by
                simp [machine, start, hrunning, hqueue]; rfl⟩

/-- The requests settle: when no work is left, every call's main block has run. -/
theorem settles (process : ChatBot → List Message → ChatBotResult)
    (calls : List (Call Message)) :
    (machine process).Settles isWork (Workable calls) State.workLeft
      fun t => t.Quiescent ∧ t.handled = calls.length where
  keeps := by
    intro state action following hstate hwork hnext
    have hmade := work_of_next hwork hnext
    exact ⟨hmade.calls_eq.trans hstate.calls, hstate.ordered.step (step_effect hnext),
      hmade.held hstate.held⟩
  lowers := fun _ hwork hnext => (work_of_next hwork hnext).work_left_lt
  goes_on := by
    intro state hstate hleft
    refine exists_work process hstate.held fun hquiescent => hleft ⟨hquiescent, ?_⟩
    -- nothing is pending, so all requests have been handled
    have hpending : state.pending = [] := by
      obtain ⟨hqueue, hrunning, hmain⟩ := hquiescent
      simp [State.pending, hqueue, hrunning, hmain]
    have hhandled := hstate.ordered.pending.symm.trans hpending
    rw [List.drop_eq_nil_iff, length_requests] at hhandled
    have hle := hstate.ordered.handled_le
    rw [hstate.calls] at hhandled hle
    omega

theorem workable_of_reachable (h : (machine process).Reachable s) : Workable s.calls s := by
  have hordered : Ordered s := (ordered_and_honest_of_reachable h).1
  refine ⟨rfl, hordered, ?_⟩
  refine h.invariant (P := fun state => ∀ running, state.running = some running →
    LockedAppend.Held running.localQueue) (fun running hrunning => by cases hrunning) ?_
  intro state action following hstate hnext
  cases action with
  | handleMessages messages =>
      cases hnext
      exact hstate
  | _ => exact (work_of_next rfl hnext).held hstate

/-- If every bot's `process` returns, operations and main blocks come to an end by themselves from
every reachable state, whatever the schedule, and then the main block of every call that was made
has run. -/
theorem requests_come_to_rest (h : (machine process).Reachable s) :
    (machine process).ComesToRest isWork
      (fun t => t.Quiescent ∧ t.handled = s.calls.length) s :=
  (settles process s.calls).comes_to_rest (workable_of_reachable h)

/-- One operation has the lock while a second request waits: both main blocks will run. -/
theorem requests_come_to_rest_run :
    let M := machine fun bot (_ : List String) => ⟨bot, [⟨["hello"], "greeting"⟩]⟩
    ∃ s, M.Reachable s ∧ s.queue.length = 1 ∧
      M.ComesToRest isWork (fun t => t.Quiescent ∧ t.handled = 2) s := by
  intro M
  obtain ⟨s, hs, hqueue, hcalls⟩ := M.exists_reachable
    [.handleMessages ["a"], .start [.named "snow", .named "tsoy"] fun _ => none, .work 0,
      .work 0, .handleMessages ["b"]]
    (fun s => s.queue.length = 1 ∧ s.calls.length = 2) (by decide)
  exact ⟨s, hs, hqueue, hcalls ▸ requests_come_to_rest hs⟩

end AiGramLib.Messages
