import Mathlib.Data.List.Perm.Basic
import AiGramLib.Details.Effect

/-!
# Server calls report once

A call passes through a data task, for a vote and for enabling a bot through a second one, and
through one or two main blocks before its completion is invoked. At any time it is in exactly one
of these places or has been answered (`Accounted`), and each place knows how its request ended
(`Recorded`). `reported_once` puts the two together.
-/

namespace AiGramLib.Details

open Transition

/-- The call that a refresh is made for. -/
def Caller.call? : Caller → Option Nat
  | .start | .firstStart => none
  | .rate call | .enable call => some call

/-- The call that a handler will go on with. -/
def Handler.call? : Handler → Option Nat
  | .firstStart => none
  | .vote call | .enabling call | .voting call => some call
  | .details refresh => refresh.caller.call?

/-- The call that a main block will go on with. -/
def Block.call? : Block → Option Nat
  | .received refresh _ | .store refresh _ _ => refresh.caller.call?
  | .voteFailed call _ | .enablingFailed call | .rated call _ => some call

/-- The calls in all the places where they can be. -/
def State.places (s : State) : List Nat :=
  s.tasks.filterMap (fun task => task.handler.call?) ++ s.main.filterMap Block.call? ++
    s.answers.map Answer.call

theorem mem_places_of_task {s : State} {task : DataTask} {call : Nat} (h : task ∈ s.tasks)
    (hcall : task.handler.call? = some call) : call ∈ s.places :=
  List.mem_append_left _ (List.mem_append_left _ (List.mem_filterMap.mpr ⟨task, h, hcall⟩))

theorem mem_places_of_block {s : State} {block : Block} {call : Nat} (h : block ∈ s.main)
    (hcall : block.call? = some call) : call ∈ s.places :=
  List.mem_append_left _ (List.mem_append_right _ (List.mem_filterMap.mpr ⟨block, h, hcall⟩))

/-- Each call that has been made is in one place. -/
structure Accounted (s : State) : Prop where
  count : ∀ call, s.places.count call = if call < s.calls.length then 1 else 0

variable {s t : State}

/-- Taking a task from the list takes its number out. -/
theorem count_erase_task {ofHandler : Handler → Option Nat} {tasks : List DataTask} {i : Nat}
    {task : DataTask} (h : tasks[i]? = some task) (number : Nat) :
    (tasks.filterMap fun task => ofHandler task.handler).count number =
      ((tasks.eraseIdx i).filterMap fun task => ofHandler task.handler).count number +
        (ofHandler task.handler).toList.count number := by
  obtain ⟨hi, htask⟩ := List.getElem?_eq_some_iff.mp h
  have hperm := (List.getElem_cons_eraseIdx_perm hi).symm.filterMap
    (fun task => ofHandler task.handler)
  rw [hperm.count_eq, htask, List.filterMap_cons]
  cases ofHandler task.handler with
  | none => simp
  | some own => simp [List.count_cons, Nat.add_comm]

theorem count_request (s : State) (function : String) (handler : Handler) (call : Nat) :
    (request s function handler).places.count call =
      s.places.count call + handler.call?.toList.count call := by
  cases hcall : handler.call? <;> simp [State.places, request, hcall, List.count_cons]; omega

theorem count_refresh (s : State) (caller : Caller) (call : Nat) :
    (getTreshovieBots s caller).places.count call =
      s.places.count call + caller.call?.toList.count call :=
  count_request s "getBotsInfo" (.details ⟨s.started, caller⟩) call

theorem count_dispatch (s : State) (block : Block) (call : Nat) :
    (dispatch s block).places.count call =
      s.places.count call + block.call?.toList.count call := by
  cases hcall : block.call? <;> simp [State.places, dispatch, hcall, List.count_cons]; omega

theorem count_report (s : State) (own : Nat) (what : Report) (call : Nat) :
    (report s own what).places.count call = s.places.count call + [own].count call := by
  simp [State.places, report, List.count_cons]; omega

/-- A handler passes its call on. -/
theorem count_handle (s : State) (handler : Handler) (data : Option Payload)
    (error : Option String) (call : Nat) :
    (handle s handler data error).places.count call =
      s.places.count call + handler.call?.toList.count call := by
  cases handler with
  | firstStart =>
      simp only [handle]
      split
      · exact count_refresh _ .firstStart call
      · rfl
  | vote own =>
      cases error with
      | none => exact count_refresh _ (.rate own) call
      | some error => exact count_dispatch _ (.voteFailed own error) call
  | enabling own =>
      simp only [handle]
      split
      · exact count_refresh _ (.enable own) call
      · exact count_dispatch _ (.enablingFailed own) call
  | voting own => exact count_dispatch s (.rated own (decodeRated data)) call
  | details refresh => exact count_dispatch s (.received refresh (decodeDetails data error)) call

/-- So does a main block. -/
theorem count_run_main (s : State) (block : Block) (call : Nat) :
    (runMain s block).places.count call =
      s.places.count call + block.call?.toList.count call := by
  cases block with
  | received refresh outcome =>
      obtain ⟨number, caller⟩ := refresh
      cases caller with
      | start => rfl
      | _ => exact count_dispatch s _ call
  | store refresh outcome result =>
      obtain ⟨number, caller⟩ := refresh
      cases caller with
      | start | firstStart => rfl
      | rate own => exact count_report _ own (.rateBot none) call
      | enable own => exact count_report _ own .enableBot call
  | voteFailed own error => exact count_report s own _ call
  | enablingFailed own => exact count_report s own _ call
  | rated own result => exact count_report s own _ call

/-- A call with a completion starts in one place. -/
theorem Accounted.made (h : Accounted s) (kind : Kind) (function : String) {handler : Handler}
    (hcall : handler.call? = some s.calls.length) :
    Accounted (request (call s kind) function handler) := by
  refine ⟨fun number => ?_⟩
  have hold : (call s kind).places.count number = if number < s.calls.length then 1 else 0 :=
    h.count number
  rw [count_request, hold, hcall]
  simp only [request, call, Option.toList_some, List.count_singleton, List.length_append,
    List.length_singleton, beq_iff_eq]
  split_ifs <;> omega

variable {enabledBots : AList fun _ : ChatBotId => Bool} {wasStartedBefore : Bool}

/-- Every step keeps each call in one place. -/
theorem Accounted.step (h : Accounted s) {action : Action} (hstep : Step s action t) :
    Accounted t := by
  cases hstep with
  | startedBefore => exact h
  | firstStart userId function hstarted =>
      exact ⟨fun number => (count_request s function .firstStart number).trans (h.count number)⟩
  | rateBot => exact h.made .rateBot _ rfl
  | enableBot bot enabled userId =>
      have henabled : Accounted { s with enabledBots := s.enabledBots.insert bot.name enabled } :=
        ⟨h.count⟩
      exact henabled.made .enableBot _ rfl
  | isBotRatedBy => exact h.made .isBotRatedBy _ rfl
  | responded i data error task htask =>
      refine ⟨fun number => ?_⟩
      have hold := h.count number
      rw [State.places, List.count_append, List.count_append, count_erase_task htask] at hold
      rw [count_handle, (handle_frame ..).2.2.2.1, ← hold]
      simp only [State.places, List.count_append]
      omega
  | ran block rest hmain =>
      refine ⟨fun number => ?_⟩
      have hold := h.count number
      rw [count_run_main, (run_main_frame ..).2.2.1, ← hold]
      simp only [State.places, hmain, List.filterMap_cons, List.count_append]
      cases block.call? <;> simp [List.count_cons]; omega

section

variable (calls : List Kind) (ended : List Ended)

/-- A refresh for a call was started after the request of the call had succeeded. -/
def Refresh.Recorded (refresh : Refresh) : Prop :=
  match refresh.caller with
  | .start | .firstStart => True
  | .rate call => calls[call]? = some .rateBot ∧
      ∃ request ∈ ended, request.call = call ∧ request.error = none ∧
        request.started ≤ refresh.number
  | .enable call => calls[call]? = some .enableBot ∧
      ∃ request ∈ ended, request.call = call ∧ request.error = none ∧
        request.started ≤ refresh.number

/-- What is on record of the call that a handler will go on with. -/
def Handler.Recorded : Handler → Prop
  | .firstStart => True
  | .vote call => calls[call]? = some .rateBot ∧ call ∉ ended.map Ended.call
  | .enabling call => calls[call]? = some .enableBot ∧ call ∉ ended.map Ended.call
  | .voting call => calls[call]? = some .isBotRatedBy ∧ call ∉ ended.map Ended.call
  | .details refresh => refresh.Recorded calls ended

/-- What is on record of the call that a main block will go on with. -/
def Block.Recorded : Block → Prop
  | .received refresh _ | .store refresh _ _ => refresh.Recorded calls ended
  | .voteFailed call error => calls[call]? = some .rateBot ∧
      ∃ request ∈ ended, request.call = call ∧ request.error = some error
  | .enablingFailed call => calls[call]? = some .enableBot ∧
      ∃ request ∈ ended, request.call = call ∧ request.error ≠ none
  | .rated call _ => calls[call]? = some .isBotRatedBy ∧ call ∉ ended.map Ended.call

/-- What is on record of a call that has been answered. -/
def Answer.Recorded (answer : Answer) : Prop :=
  calls[answer.call]? = some answer.report.kind ∧
  ∀ error, answer.report = .rateBot error →
    ∃ request ∈ ended, request.call = answer.call ∧ request.error = error

end

/-- Every place knows how the request of its call ended. -/
structure Recorded (s : State) : Prop where
  tasks : ∀ task ∈ s.tasks, task.handler.Recorded s.calls s.ended
  main : ∀ block ∈ s.main, block.Recorded s.calls s.ended
  answers : ∀ answer ∈ s.answers, answer.Recorded s.calls s.ended
  once : (s.ended.map Ended.call).Nodup
  made : ∀ request ∈ s.ended, request.call < s.calls.length

section

variable {calls : List Kind} {ended : List Ended}

theorem getElem_append_call {own : Nat} {kind : Kind} (h : calls[own]? = some kind)
    (moreCalls : List Kind) : (calls ++ moreCalls)[own]? = some kind := by
  rw [List.getElem?_append_left (List.getElem?_eq_some_iff.mp h).1, h]

/-- Later calls, and the ends of other calls' requests, change nothing on record. -/
theorem Refresh.Recorded.mono {refresh : Refresh} (h : refresh.Recorded calls ended)
    (moreCalls : List Kind) (moreEnded : List Ended) :
    refresh.Recorded (calls ++ moreCalls) (ended ++ moreEnded) := by
  obtain ⟨number, caller⟩ := refresh
  cases caller with
  | start | firstStart => trivial
  | rate | enable =>
      obtain ⟨hcall, request, hrequest, hended⟩ := h
      exact ⟨getElem_append_call hcall moreCalls, request, List.mem_append_left _ hrequest, hended⟩

theorem not_mem_append_ended {own : Nat} {moreEnded : List Ended}
    (h : own ∉ ended.map Ended.call) (hother : ∀ request ∈ moreEnded, request.call ≠ own) :
    own ∉ (ended ++ moreEnded).map Ended.call := by
  rw [List.map_append, List.mem_append, not_or]
  refine ⟨h, fun hmem => ?_⟩
  obtain ⟨request, hrequest, hcall⟩ := List.mem_map.mp hmem
  exact hother request hrequest hcall

theorem Handler.Recorded.mono {handler : Handler} (h : handler.Recorded calls ended)
    (moreCalls : List Kind) {moreEnded : List Ended}
    (hother : ∀ request ∈ moreEnded, handler.call? ≠ some request.call) :
    handler.Recorded (calls ++ moreCalls) (ended ++ moreEnded) := by
  cases handler with
  | firstStart => trivial
  | vote own | enabling own | voting own =>
      refine ⟨getElem_append_call h.1 moreCalls, not_mem_append_ended h.2 ?_⟩
      exact fun request hrequest hcall =>
        hother request hrequest (congrArg some hcall.symm)
  | details refresh => exact Refresh.Recorded.mono h moreCalls moreEnded

theorem Block.Recorded.mono {block : Block} (h : block.Recorded calls ended)
    (moreCalls : List Kind) {moreEnded : List Ended}
    (hother : ∀ request ∈ moreEnded, block.call? ≠ some request.call) :
    block.Recorded (calls ++ moreCalls) (ended ++ moreEnded) := by
  cases block with
  | received refresh | store refresh => exact Refresh.Recorded.mono h moreCalls moreEnded
  | voteFailed | enablingFailed =>
      obtain ⟨hcall, request, hrequest, hended⟩ := h
      exact ⟨getElem_append_call hcall moreCalls, request, List.mem_append_left _ hrequest, hended⟩
  | rated own =>
      refine ⟨getElem_append_call h.1 moreCalls, not_mem_append_ended h.2 ?_⟩
      exact fun request hrequest hcall =>
        hother request hrequest (congrArg some hcall.symm)

theorem Answer.Recorded.mono {answer : Answer} (h : answer.Recorded calls ended)
    (moreCalls : List Kind) (moreEnded : List Ended) :
    answer.Recorded (calls ++ moreCalls) (ended ++ moreEnded) := by
  refine ⟨getElem_append_call h.1 moreCalls, fun error hreport => ?_⟩
  obtain ⟨request, hrequest, hended⟩ := h.2 error hreport
  exact ⟨request, List.mem_append_left _ hrequest, hended⟩

end

theorem Recorded.request (h : Recorded s) (function : String) {handler : Handler}
    (hhandler : handler.Recorded s.calls s.ended) :
    Recorded (Details.request s function handler) where
  tasks := List.forall_mem_append.mpr ⟨h.tasks, List.forall_mem_singleton.mpr hhandler⟩
  main := h.main
  answers := h.answers
  once := h.once
  made := h.made

theorem Recorded.refresh (h : Recorded s) {caller : Caller}
    (hcaller : Refresh.Recorded s.calls s.ended ⟨s.started, caller⟩) :
    Recorded (getTreshovieBots s caller) :=
  have hrequest : Recorded (Details.request s "getBotsInfo" (.details ⟨s.started, caller⟩)) :=
    h.request "getBotsInfo" hcaller
  ⟨hrequest.tasks, hrequest.main, hrequest.answers, hrequest.once, hrequest.made⟩

theorem Recorded.dispatch (h : Recorded s) {block : Block}
    (hblock : block.Recorded s.calls s.ended) : Recorded (Details.dispatch s block) where
  tasks := h.tasks
  main := List.forall_mem_append.mpr ⟨h.main, List.forall_mem_singleton.mpr hblock⟩
  answers := h.answers
  once := h.once
  made := h.made

theorem Recorded.report (h : Recorded s) {own : Nat} {what : Report}
    (hanswer : Answer.Recorded s.calls s.ended ⟨own, what⟩) :
    Recorded (Details.report s own what) where
  tasks := h.tasks
  main := h.main
  answers := List.forall_mem_append.mpr ⟨h.answers, List.forall_mem_singleton.mpr hanswer⟩
  once := h.once
  made := h.made

/-- Calls are made, and the requests of calls end that are in no place at that moment. -/
theorem Recorded.extend (h : Recorded s) (moreCalls : List Kind) {moreEnded : List Ended}
    (hfree : ∀ request ∈ moreEnded, request.call ∉ s.places)
    (honce : ((s.ended ++ moreEnded).map Ended.call).Nodup)
    (hmade : ∀ request ∈ moreEnded, request.call < s.calls.length) :
    Recorded { s with calls := s.calls ++ moreCalls, ended := s.ended ++ moreEnded } where
  tasks task htask := (h.tasks task htask).mono moreCalls fun request hrequest hcall =>
    hfree request hrequest (mem_places_of_task htask hcall)
  main block hblock := (h.main block hblock).mono moreCalls fun request hrequest hcall =>
    hfree request hrequest (mem_places_of_block hblock hcall)
  answers answer hanswer := (h.answers answer hanswer).mono moreCalls moreEnded
  once := honce
  made request hrequest := by
    rw [List.length_append]
    refine Nat.lt_add_right _ ?_
    rcases List.mem_append.mp hrequest with hold | hnew
    · exact h.made request hold
    · exact hmade request hnew

theorem Recorded.call (h : Recorded s) (kind : Kind) : Recorded (Details.call s kind) := by
  have hextend := @Recorded.extend s h [kind] [] (by simp) (by simpa using h.once) (by simp)
  simp only [List.append_nil] at hextend
  exact hextend

/-- The request of a call ends; the call is in no place while its handler runs. -/
theorem Recorded.end (h : Recorded s) {own : Nat} (hfree : own ∉ s.places)
    (hmade : own < s.calls.length) (hnew : own ∉ s.ended.map Ended.call)
    (error : Option String) :
    Recorded { s with ended := s.ended ++ [⟨own, error, s.started⟩] } := by
  have hextend := @Recorded.extend s h [] [⟨own, error, s.started⟩] (by simpa using hfree)
    (by simpa [List.nodup_append, h.once] using hnew) (by simpa using hmade)
  simp only [List.append_nil] at hextend
  exact hextend

theorem length_of_call {own : Nat} {kind : Kind} (h : s.calls[own]? = some kind) :
    own < s.calls.length :=
  (List.getElem?_eq_some_iff.mp h).1

/-- A handler puts on record how the request of its call ended. -/
theorem Recorded.handle (h : Recorded s) {handler : Handler}
    (hhandler : handler.Recorded s.calls s.ended)
    (hfree : ∀ own, handler.call? = some own → own ∉ s.places) (data : Option Payload)
    (error : Option String) : Recorded (Details.handle s handler data error) := by
  cases handler with
  | firstStart =>
      simp only [Details.handle]
      split
      · exact @Recorded.refresh { s with wasStartedBefore := true }
          ⟨h.tasks, h.main, h.answers, h.once, h.made⟩ .firstStart trivial
      · exact h
  | vote own =>
      have hended := h.end (hfree own rfl) (length_of_call hhandler.1) hhandler.2 error
      have hlast : (⟨own, error, s.started⟩ : Ended) ∈ s.ended ++ [⟨own, error, s.started⟩] := by
        simp
      cases error with
      | some error => exact hended.dispatch ⟨hhandler.1, _, hlast, rfl, rfl⟩
      | none => exact hended.refresh ⟨hhandler.1, _, hlast, rfl, rfl, le_rfl⟩
  | enabling own =>
      have hended := h.end (hfree own rfl) (length_of_call hhandler.1) hhandler.2 error
      have hlast : (⟨own, error, s.started⟩ : Ended) ∈ s.ended ++ [⟨own, error, s.started⟩] := by
        simp
      cases error with
      | some error => exact hended.dispatch ⟨hhandler.1, _, hlast, rfl, Option.some_ne_none _⟩
      | none => exact hended.refresh ⟨hhandler.1, _, hlast, rfl, rfl, le_rfl⟩
  | voting own => exact h.dispatch hhandler
  | details refresh => exact h.dispatch hhandler

/-- What a block that stores a table reports is on record. -/
theorem Recorded.store (h : Recorded s) (refresh : Refresh) (outcome : Option Table)
    (result : Table) : Recorded (Details.store s refresh outcome result) :=
  ⟨h.tasks, h.main, h.answers, h.once, h.made⟩

theorem Recorded.runMain (h : Recorded s) {block : Block}
    (hblock : block.Recorded s.calls s.ended) : Recorded (Details.runMain s block) := by
  cases block with
  | received refresh outcome =>
      obtain ⟨number, caller⟩ := refresh
      cases caller with
      | start => exact h.store _ _ _
      | firstStart | rate | enable => exact h.dispatch hblock
  | store refresh outcome result =>
      obtain ⟨number, caller⟩ := refresh
      have hstore := h.store ⟨number, caller⟩ outcome result
      cases caller with
      | start | firstStart => exact hstore
      | rate own =>
          obtain ⟨hcall, request, hrequest, hown, herror, _⟩ := hblock
          refine hstore.report ⟨hcall, fun error hreport => ?_⟩
          cases hreport
          exact ⟨request, hrequest, hown, herror⟩
      | enable own => exact hstore.report ⟨hblock.1, by simp⟩
  | voteFailed own error =>
      obtain ⟨hcall, request, hrequest, hended⟩ := hblock
      refine h.report ⟨hcall, fun error' hreport => ?_⟩
      cases hreport
      exact ⟨request, hrequest, hended⟩
  | enablingFailed own => exact h.report ⟨hblock.1, by simp⟩
  | rated own result => exact h.report ⟨hblock.1, by simp⟩

theorem Recorded.initial : Recorded (.initial enabledBots wasStartedBefore) where
  tasks := by simp [State.initial, getTreshovieBots, Details.request, Handler.Recorded,
    Refresh.Recorded]
  main := by simp [State.initial, getTreshovieBots, Details.request]
  answers := by simp [State.initial, getTreshovieBots, Details.request]
  once := .nil
  made := by simp [State.initial, getTreshovieBots, Details.request]

theorem Accounted.initial : Accounted (.initial enabledBots wasStartedBefore) :=
  ⟨fun _ => rfl⟩

/-- The call of a task that is taken from the list is in no other place. -/
theorem Accounted.erase_task (h : Accounted s) {i : Nat} {task : DataTask}
    (htask : s.tasks[i]? = some task) (own : Nat) (hcall : task.handler.call? = some own) :
    own ∉ State.places { s with tasks := s.tasks.eraseIdx i } := by
  have hcount := h.count own
  rw [State.places, List.count_append, List.count_append, count_erase_task htask, hcall] at hcount
  rw [← List.count_eq_zero, State.places, List.count_append, List.count_append]
  simp only [Option.toList_some, List.count_singleton_self] at hcount ⊢
  split at hcount <;> omega

/-- A call that is made now is the last one, and its request has not ended. -/
theorem fresh_call (h : Recorded s) (kind : Kind) :
    (s.calls ++ [kind])[s.calls.length]? = some kind ∧
      s.calls.length ∉ s.ended.map Ended.call := by
  refine ⟨by simp, fun hmem => ?_⟩
  obtain ⟨request, hrequest, hcall⟩ := List.mem_map.mp hmem
  exact absurd hcall (Nat.ne_of_lt (h.made request hrequest))

theorem Recorded.step (h : Recorded s) (haccounted : Accounted s) {action : Action}
    (hstep : Step s action t) : Recorded t := by
  cases hstep with
  | startedBefore => exact h
  | firstStart => exact h.request _ trivial
  | rateBot => exact (h.call .rateBot).request _ (fresh_call h .rateBot)
  | enableBot bot enabled userId =>
      have henabled : Recorded { s with enabledBots := s.enabledBots.insert bot.name enabled } :=
        ⟨h.tasks, h.main, h.answers, h.once, h.made⟩
      exact (henabled.call .enableBot).request _ (fresh_call h .enableBot)
  | isBotRatedBy => exact (h.call .isBotRatedBy).request _ (fresh_call h .isBotRatedBy)
  | responded i data error task htask =>
      have herased : Recorded { s with tasks := s.tasks.eraseIdx i } :=
        ⟨fun task htask => h.tasks task (List.mem_of_mem_eraseIdx htask), h.main, h.answers,
          h.once, h.made⟩
      exact herased.handle (h.tasks task (List.mem_of_getElem? htask))
        (haccounted.erase_task htask) data error
  | ran block rest hmain =>
      obtain ⟨hblock, hrest⟩ := List.forall_mem_cons.mp (hmain ▸ h.main)
      have hpopped : Recorded { s with main := rest } :=
        ⟨h.tasks, hrest, h.answers, h.once, h.made⟩
      exact hpopped.runMain hblock

/-- If the request of the call succeeded, the step from `s` to `t` stores the outcome of a refresh
that was started after that. -/
def StoresAfter (s t : State) (own : Nat) : Prop :=
  ∀ request ∈ t.ended, request.call = own → request.error = none →
    ∃ application, t.applied = s.applied ++ [application] ∧
      request.started ≤ application.refresh ∧ t.botsDetailsFromBack = application.after

/-- There is one request of a call. -/
theorem Recorded.unique (h : Recorded s) {request other : Ended} (hrequest : request ∈ s.ended)
    (hother : other ∈ s.ended) (hcall : request.call = other.call) : request = other :=
  List.inj_on_of_nodup_map h.once hrequest hother hcall

/-- The block that stores the outcome of a refresh for a call stores after it. -/
theorem Recorded.stores_after (h : Recorded s) {number own : Nat} {caller : Caller}
    (hrefresh : ∃ request ∈ s.ended, request.call = own ∧ request.error = none ∧
      request.started ≤ number)
    (outcome : Option Table) (result : Table) (what : Report) :
    StoresAfter s (Details.report (Details.store s ⟨number, caller⟩ outcome result) own what)
      own := by
  obtain ⟨request, hrequest, hown, _, hstarted⟩ := hrefresh
  intro other hother hcall _
  refine ⟨_, rfl, ?_, rfl⟩
  rw [h.unique hother hrequest (hcall.trans hown.symm)]
  exact hstarted

/-- A block that answers a call does so after the effect of the call. -/
theorem Recorded.run_main_answer (h : Recorded s) {block : Block}
    (hblock : block.Recorded s.calls s.ended) :
    (Details.runMain s block).answers = s.answers ∨
      ∃ answer, (Details.runMain s block).answers = s.answers ++ [answer] ∧
        StoresAfter s (Details.runMain s block) answer.call := by
  cases block with
  | received refresh outcome =>
      obtain ⟨number, caller⟩ := refresh
      cases caller <;> exact .inl rfl
  | store refresh outcome result =>
      obtain ⟨number, caller⟩ := refresh
      cases caller with
      | start | firstStart => exact .inl rfl
      | rate own => exact .inr ⟨_, rfl, h.stores_after hblock.2 outcome result _⟩
      | enable own => exact .inr ⟨_, rfl, h.stores_after hblock.2 outcome result _⟩
  | voteFailed own error =>
      obtain ⟨_, request, hrequest, hown, hfailed⟩ := hblock
      refine .inr ⟨_, rfl, fun other hother hcall hsucceeded => ?_⟩
      rw [h.unique hother hrequest (hcall.trans hown.symm), hfailed] at hsucceeded
      cases hsucceeded
  | enablingFailed own =>
      obtain ⟨_, request, hrequest, hown, hfailed⟩ := hblock
      refine .inr ⟨_, rfl, fun other hother hcall hsucceeded => ?_⟩
      rw [h.unique hother hrequest (hcall.trans hown.symm)] at hsucceeded
      exact absurd hsucceeded hfailed
  | rated own result =>
      refine .inr ⟨_, rfl, fun other hother hcall _ => ?_⟩
      exact absurd (List.mem_map.mpr ⟨other, hother, hcall⟩) hblock.2

/-- Calls are answered by main blocks, one by each at most. -/
theorem Recorded.answer (h : Recorded s) {action : Action} (hstep : Step s action t)
    (hanswered : t.answers ≠ s.answers) :
    action = .runBlock ∧ ∃ answer, t.answers = s.answers ++ [answer] ∧
      StoresAfter s t answer.call := by
  rcases step_effect hstep with ⟨_, _, hsame, _⟩ | ⟨rfl, block, rest, hmain, rfl⟩
  · exact absurd hsame hanswered
  · obtain ⟨hblock, hrest⟩ := List.forall_mem_cons.mp (hmain ▸ h.main)
    have hpopped : Recorded { s with main := rest } :=
      ⟨h.tasks, hrest, h.answers, h.once, h.made⟩
    exact ⟨rfl, (hpopped.run_main_answer hblock).resolve_left hanswered⟩

/-- What each reachable state has on record. -/
theorem recorded_of_reachable (h : (machine enabledBots wasStartedBefore).Reachable s) :
    Accounted s ∧ Recorded s :=
  h.invariant (P := fun s => Accounted s ∧ Recorded s) ⟨.initial, .initial⟩
    fun _ _ _ hs hnext => ⟨hs.1.step (step_of_next hnext), hs.2.step hs.1 (step_of_next hnext)⟩

end AiGramLib.Details
