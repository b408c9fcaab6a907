import Mathlib.Data.List.Perm.Basic
import AiGramLib.Details.Effect

/-!
# The install event

`sendFirstStartIfNeeded` looks at a flag in `UserDefaults` that is set when its request has been
answered without an error. A device goes through launches of the app, which keep `UserDefaults`
and nothing else. `install_counted_once` says that at most one of the requests succeeds on a
device, in the runs in which none is sent while another one of this launch is outstanding;
`second_first_start` shows what a second one can do.
-/

namespace AiGramLib.Details

open Transition

/-- The number of `installDeleteApp` requests that have not been answered. -/
def State.firstStarts (s : State) : Nat :=
  (s.tasks.map DataTask.handler).count .firstStart

/-- The call sends a request. -/
def sendsFirstStart (s : State) : Action → Bool
  | .sendFirstStartIfNeeded _ => !s.wasStartedBefore
  | _ => false

/-- An `installDeleteApp` request is answered without an error. -/
def firstStartSucceeds (s : State) : Action → Bool
  | .respond i _ error => error.isNone && s.tasks[i]?.any fun task => task.handler == .firstStart
  | _ => false

/-- A device with the app on it. -/
structure Device where
  app : State
  /-- The number of `installDeleteApp` requests that have succeeded. -/
  succeeded : Nat

inductive DeviceAction where
  | app (action : Action)
  /-- The app ends, and is launched again. -/
  | relaunch

/-- All runs of the app on a device, from the first launch on. -/
def device (enabledBots : AList fun _ : ChatBotId => Bool) (wasStartedBefore : Bool) :
    Machine Device DeviceAction where
  start := { app := .initial enabledBots wasStartedBefore, succeeded := 0 }
  next d
    | .app action => do
        let app ← (machine enabledBots wasStartedBefore).next d.app action
        pure { app, succeeded := d.succeeded + (firstStartSucceeds d.app action).toNat }
    | .relaunch => some { d with app := .initial d.app.enabledBots d.app.wasStartedBefore }

/-- No request is sent while another one of this launch is outstanding. -/
def sentAlone (d : Device) : DeviceAction → Bool
  | .app action => !sendsFirstStart d.app action || d.app.firstStarts == 0
  | .relaunch => true

variable {enabledBots : AList fun _ : ChatBotId => Bool} {wasStartedBefore : Bool} {s t : State}
  {d next : Device} {action : Action}

theorem first_starts_request (s : State) (function : String) (handler : Handler) :
    (request s function handler).firstStarts =
      s.firstStarts + (handler == .firstStart).toNat := by
  cases handler <;> simp [State.firstStarts, request]

/-- A handler sends no `installDeleteApp` request. -/
theorem first_starts_handle (s : State) (handler : Handler) (data : Option Payload)
    (error : Option String) : (handle s handler data error).firstStarts = s.firstStarts := by
  cases handler with
  | firstStart =>
      cases error with
      | none => exact first_starts_request _ _ (.details _)
      | some error => rfl
  | vote | enabling =>
      cases error with
      | none => exact first_starts_request _ _ (.details _)
      | some error => rfl
  | voting | details => rfl

theorem first_starts_erase {i : Nat} {task : DataTask} (h : s.tasks[i]? = some task) :
    State.firstStarts { s with tasks := s.tasks.eraseIdx i } +
      (task.handler == .firstStart).toNat = s.firstStarts := by
  obtain ⟨hi, rfl⟩ := List.getElem?_eq_some_iff.mp h
  have hperm := (List.getElem_cons_eraseIdx_perm hi).map DataTask.handler
  rw [State.firstStarts, State.firstStarts, ← hperm.count_eq, List.map_cons, List.count_cons]
  cases s.tasks[i].handler == .firstStart <;> rfl

theorem was_started_handle (s : State) (handler : Handler) (data : Option Payload)
    (error : Option String) :
    (handle s handler data error).wasStartedBefore =
      (s.wasStartedBefore || (error.isNone && handler == .firstStart)) := by
  cases handler with
  | firstStart => cases error <;> simp [handle, getTreshovieBots, request]
  | vote | enabling => cases error <;> simp [handle, getTreshovieBots, request, dispatch]
  | voting | details => simp [handle, dispatch]

theorem run_main_was_started (s : State) (block : Block) :
    (runMain s block).wasStartedBefore = s.wasStartedBefore := by
  cases block with
  | received refresh outcome =>
      obtain ⟨number, caller⟩ := refresh
      cases caller <;> rfl
  | store refresh outcome =>
      obtain ⟨number, caller⟩ := refresh
      cases caller <;> rfl
  | voteFailed | enablingFailed | rated => rfl

/-- The flag is set by the requests that succeed. -/
theorem Step.was_started (h : Step s action t) :
    t.wasStartedBefore = (s.wasStartedBefore || firstStartSucceeds s action) := by
  cases h with
  | startedBefore | firstStart | rateBot | enableBot | isBotRatedBy =>
      exact (Bool.or_false _).symm
  | responded i data error task htask =>
      rw [was_started_handle, firstStartSucceeds, htask]
      rfl
  | ran block rest hmain =>
      rw [run_main_was_started]
      exact (Bool.or_false _).symm

/-- A request that succeeds was outstanding, and only `sendFirstStartIfNeeded` adds to those. -/
theorem Step.first_starts (h : Step s action t) :
    t.firstStarts + (firstStartSucceeds s action).toNat ≤
      s.firstStarts + (sendsFirstStart s action).toNat := by
  cases h with
  | startedBefore => simp [firstStartSucceeds]
  | firstStart userId function hstarted =>
      rw [first_starts_request, sendsFirstStart, hstarted]
      exact Nat.le_refl _
  | rateBot | enableBot | isBotRatedBy =>
      exact Nat.le_of_eq (first_starts_request _ _ _)
  | responded i data error task htask =>
      have herased := first_starts_erase htask
      rw [first_starts_handle, firstStartSucceeds, htask, Option.any_some]
      cases error.isNone with
      | true =>
          rw [Bool.true_and, herased]
          exact Nat.le_add_right _ _
      | false =>
          rw [Bool.false_and, ← herased, Bool.toNat_false, Nat.add_zero, Nat.add_assoc]
          exact Nat.le_add_right _ _
  | ran block rest hmain =>
      have htasks := (run_main_frame { s with main := rest } block).1
      rw [State.firstStarts, htasks]
      exact Nat.le_refl _

/-- At most one request is outstanding or has succeeded, and one that has succeeded has set the
flag. -/
structure CountedOnce (d : Device) : Prop where
  le_one : d.app.firstStarts + d.succeeded ≤ 1
  flag : d.succeeded ≠ 0 → d.app.wasStartedBefore = true

theorem CountedOnce.app (h : CountedOnce d) (hok : sentAlone d (.app action) = true)
    (hnext : (device enabledBots wasStartedBefore).next d (.app action) = some next) :
    CountedOnce next := by
  obtain ⟨app, happ, hnext⟩ := Option.bind_eq_some_iff.mp hnext
  cases hnext
  have hstep := step_of_next happ
  have hcount := hstep.first_starts
  have hle := h.le_one
  refine ⟨?_, fun hsucceeded => ?_⟩
  · show app.firstStarts + (d.succeeded + (firstStartSucceeds d.app action).toNat) ≤ 1
    cases hsends : sendsFirstStart d.app action with
    | false =>
        rw [hsends, Bool.toNat_false] at hcount
        omega
    | true =>
        -- it is sent because the flag is not set, so none has succeeded, and none is outstanding
        have hflag : d.app.wasStartedBefore = false := by
          cases action <;> simp_all [sendsFirstStart]
        have hnone : d.succeeded = 0 := by
          by_contra hsome
          simp [h.flag hsome] at hflag
        have halone : d.app.firstStarts = 0 := by simpa [sentAlone, hsends] using hok
        rw [hsends, Bool.toNat_true] at hcount
        omega
  · show app.wasStartedBefore = true
    rw [hstep.was_started]
    cases hwon : firstStartSucceeds d.app action with
    | true => exact Bool.or_true _
    | false =>
        rw [hwon] at hsucceeded
        rw [h.flag hsucceeded, Bool.true_or]

/-- A launch starts with no request outstanding, and with the flag as it was. -/
theorem CountedOnce.relaunch (h : CountedOnce d) :
    CountedOnce { d with app := .initial d.app.enabledBots d.app.wasStartedBefore } where
  le_one := by
    have hle := h.le_one
    show 0 + d.succeeded ≤ 1
    omega
  flag := h.flag

/-- On a device on which no request is sent while another one is outstanding, at most one
`installDeleteApp` request succeeds. -/
theorem install_counted_once
    (h : ((device enabledBots wasStartedBefore).restrict sentAlone).Reachable d) :
    d.succeeded ≤ 1 := by
  have hcounted : CountedOnce d := by
    refine h.restrict_induction ⟨Nat.zero_le 1, fun hsome => absurd rfl hsome⟩
      fun state action following _ hstate hok hnext => ?_
    cases action with
    | app action => exact hstate.app hok hnext
    | relaunch =>
        cases hnext
        exact hstate.relaunch
  have hle := hcounted.le_one
  omega

/-- A request that is outstanding can still succeed, whatever the flag is. -/
theorem first_start_can_succeed (enabledBots : AList fun _ : ChatBotId => Bool)
    (wasStartedBefore : Bool) (h : 0 < d.app.firstStarts) :
    ∃ next, (device enabledBots wasStartedBefore).Reaches d next ∧
      next.app.firstStarts + 1 = d.app.firstStarts ∧ next.succeeded = d.succeeded + 1 := by
  obtain ⟨task, hmem, hhandler⟩ := List.mem_map.mp (List.count_pos_iff.mp h)
  obtain ⟨i, htask⟩ := List.mem_iff_getElem?.mp hmem
  have herased := first_starts_erase htask
  rw [hhandler] at herased
  let app := handle { d.app with tasks := d.app.tasks.eraseIdx i } .firstStart none none
  have hnext : (device enabledBots wasStartedBefore).next d (.app (.respond i none none)) =
      some { app, succeeded := d.succeeded + 1 } := by
    simp [device, machine, firstStartSucceeds, htask, hhandler, app]
  refine ⟨_, .step hnext, ?_, rfl⟩
  show app.firstStarts + 1 = d.app.firstStarts
  rw [first_starts_handle]
  exact herased

/-- A request that is sent while another one is outstanding makes two that can succeed: the
condition of `install_counted_once` cannot be dropped for a single call. -/
theorem second_first_start (userId : Int)
    (h : sentAlone d (.app (.sendFirstStartIfNeeded userId)) = false) :
    ∃ next, (device enabledBots wasStartedBefore).Reaches
      { d with app := sendFirstStartIfNeeded d.app userId } next ∧
      next.succeeded = d.succeeded + 2 := by
  simp only [sentAlone, sendsFirstStart, Bool.not_not, Bool.or_eq_false_iff,
    beq_eq_false_iff_ne] at h
  obtain ⟨hflag, houtstanding⟩ := h
  let sent : Device := { d with app := sendFirstStartIfNeeded d.app userId }
  have hsent : sent.app.firstStarts = d.app.firstStarts + 1 := by
    show (sendFirstStartIfNeeded d.app userId).firstStarts = _
    rw [sendFirstStartIfNeeded, hflag]
    exact first_starts_request _ _ .firstStart
  have hpos : 0 < sent.app.firstStarts := by omega
  obtain ⟨first, hfirst, hleft, hone⟩ := first_start_can_succeed enabledBots wasStartedBefore hpos
  have hpos' : 0 < first.app.firstStarts := by omega
  obtain ⟨second, hsecond, -, htwo⟩ :=
    first_start_can_succeed enabledBots wasStartedBefore hpos'
  refine ⟨second, hfirst.trans hsecond, ?_⟩
  rw [htwo, hone]

/-- Two launches: the request of the first one fails, and that of the second one succeeds. -/
theorem install_counted_once_run : ∃ d : Device,
    ((device ∅ false).restrict sentAlone).Reachable d ∧ d.succeeded = 1 ∧ d.succeeded ≤ 1 := by
  obtain ⟨d, hreach, hsucceeded⟩ :=
    ((device ∅ false).restrict sentAlone).exists_reachable
      [.app (.sendFirstStartIfNeeded 1), .app (.respond 1 none (some "offline")), .relaunch,
        .app (.sendFirstStartIfNeeded 1), .app (.respond 1 none none), .relaunch,
        .app (.sendFirstStartIfNeeded 1)]
      (fun d => d.succeeded = 1) (by decide)
  exact ⟨d, hreach, hsucceeded, install_counted_once hreach⟩

/-- Two calls before the server has answered, and two installs. -/
theorem install_counted_twice :
    ∃ d : Device, (device ∅ false).Reachable d ∧ d.succeeded = 2 :=
  (device ∅ false).exists_reachable
    [.app (.sendFirstStartIfNeeded 1), .app (.sendFirstStartIfNeeded 1),
      .app (.respond 1 none none), .app (.respond 1 none none)]
    (fun d => d.succeeded = 2) (by decide)

end AiGramLib.Details
