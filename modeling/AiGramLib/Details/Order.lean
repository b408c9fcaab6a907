import AiGramLib.Details.Reported

/-!
# When the details never go back

Refreshes are stored in the order in which they are answered, whatever the order in which they
were started, except that the one of `init` is stored one main block earlier than any other. The
numbers of the answered refreshes, in the order in which they will be stored, form a line that
main blocks leave as it is (`line_run_main`): whether it stays in increasing order is decided
when an answer arrives (`inOrder`).
-/

namespace AiGramLib.Details

open Transition
open scoped List

/-- The number of the refresh that a main block stores. -/
def Block.stores? : Block → Option Nat
  | .received refresh _ => if refresh.caller = .start then some refresh.number else none
  | .store refresh _ _ => some refresh.number
  | .voteFailed .. | .enablingFailed _ | .rated .. => none

/-- The number of the refresh that a main block passes on to a second one. -/
def Block.passes? : Block → Option Nat
  | .received refresh _ => if refresh.caller = .start then none else some refresh.number
  | .store .. | .voteFailed .. | .enablingFailed _ | .rated .. => none

/-- The refreshes that have been stored, or will be as soon as the blocks on the main queue have
run once. -/
def State.front (s : State) : List Nat :=
  s.applied.map Application.refresh ++ s.main.filterMap Block.stores?

/-- The refreshes that have been answered, in the order in which they are stored. -/
def State.line (s : State) : List Nat :=
  s.front ++ s.main.filterMap Block.passes?

/-- The line after the answer to a refresh. -/
def State.lineWith (s : State) (refresh : Refresh) : List Nat :=
  if refresh.caller = .start then
    s.front ++ [refresh.number] ++ s.main.filterMap Block.passes?
  else s.line ++ [refresh.number]

/-- No refresh that was started later is stored before the one that is answered. -/
def inOrder (s : State) : Action → Bool
  | .respond i _ _ =>
      match s.tasks[i]? with
      | some ⟨_, .details refresh⟩ =>
          (if refresh.caller = .start then s.front else s.line).all (· < refresh.number)
      | _ => true
  | _ => true

/-- A refresh that is answered succeeds. -/
def succeeds (s : State) : Action → Bool
  | .respond i data error =>
      match s.tasks[i]? with
      | some ⟨_, .details _⟩ => (decodeDetails data error).isSome
      | _ => true
  | _ => true

def Handler.refresh? : Handler → Option Refresh
  | .details refresh => some refresh
  | .firstStart | .vote _ | .enabling _ | .voting _ => none

/-- The refreshes that have not been answered. -/
def State.unanswered (s : State) : List Refresh :=
  s.tasks.filterMap fun task => task.handler.refresh?

variable {s t : State}

theorem unanswered_request (s : State) (function : String) (handler : Handler) :
    (request s function handler).unanswered = s.unanswered ++ handler.refresh?.toList := by
  cases handler <;> simp [State.unanswered, request, Handler.refresh?]

theorem unanswered_request_other (s : State) (function : String) {handler : Handler}
    (h : handler.refresh? = none) : (request s function handler).unanswered = s.unanswered := by
  rw [unanswered_request, h]
  exact List.append_nil _

theorem unanswered_erase {i : Nat} {task : DataTask} (h : s.tasks[i]? = some task) :
    s.unanswered.Perm (task.handler.refresh?.toList ++
      State.unanswered { s with tasks := s.tasks.eraseIdx i }) := by
  obtain ⟨hi, rfl⟩ := List.getElem?_eq_some_iff.mp h
  have hperm := (List.getElem_cons_eraseIdx_perm hi).symm.filterMap
    (fun task => task.handler.refresh?)
  rw [List.filterMap_cons] at hperm
  cases hrefresh : (s.tasks[i]).handler.refresh? with
  | none => simpa [State.unanswered, hrefresh] using hperm
  | some refresh => simpa [State.unanswered, hrefresh] using hperm

/-- A block that has nothing to do with a refresh does not come into the line. -/
theorem line_dispatch (s : State) {block : Block} (hstores : block.stores? = none)
    (hpasses : block.passes? = none) : (dispatch s block).line = s.line := by
  simp [State.line, State.front, dispatch, hstores, hpasses]

/-- Main blocks leave the line as it is. -/
theorem line_run_main {block : Block} {rest : List Block} (hmain : s.main = block :: rest) :
    (runMain { s with main := rest } block).line = s.line := by
  cases block with
  | received refresh outcome =>
      obtain ⟨number, caller⟩ := refresh
      cases caller <;>
        simp [State.line, State.front, runMain, store, dispatch, hmain, Block.stores?,
          Block.passes?]
  | store refresh outcome result =>
      obtain ⟨number, caller⟩ := refresh
      cases caller <;>
        simp [State.line, State.front, runMain, store, report, hmain, List.filterMap_cons,
          Block.stores?, Block.passes?]
  | voteFailed | enablingFailed | rated =>
      simp [State.line, State.front, runMain, report, hmain, List.filterMap_cons,
        Block.stores?, Block.passes?]

/-- The answer to a refresh comes into the line. -/
theorem handle_details_line (s : State) (refresh : Refresh) (data : Option Payload)
    (error : Option String) :
    (handle s (.details refresh) data error).line = s.lineWith refresh := by
  by_cases hcaller : refresh.caller = .start <;>
    simp [State.line, State.lineWith, State.front, handle, dispatch, Block.stores?,
      Block.passes?, hcaller]

/-- A handler starts a refresh, or lines one up, or does nothing of the kind. -/
theorem handle_line (s : State) (handler : Handler) (data : Option Payload)
    (error : Option String) :
    (handler.refresh? = none ∧ (handle s handler data error).line = s.line ∧
      (handle s handler data error).started = s.started ∧
      (handle s handler data error).unanswered = s.unanswered) ∨
    (handler.refresh? = none ∧ (handle s handler data error).line = s.line ∧
      (handle s handler data error).started = s.started + 1 ∧
      ∃ caller ≠ Caller.start,
        (handle s handler data error).unanswered = s.unanswered ++ [⟨s.started, caller⟩]) ∨
    ∃ refresh, handler = .details refresh ∧
      (handle s handler data error).line = s.lineWith refresh ∧
      (handle s handler data error).started = s.started ∧
      (handle s handler data error).unanswered = s.unanswered := by
  cases handler with
  | firstStart =>
      cases error with
      | some error => exact .inl ⟨rfl, rfl, rfl, rfl⟩
      | none => exact .inr (.inl ⟨rfl, rfl, rfl, .firstStart, by simp, unanswered_request ..⟩)
  | vote call =>
      cases error with
      | some error => exact .inl ⟨rfl, line_dispatch _ rfl rfl, rfl, rfl⟩
      | none => exact .inr (.inl ⟨rfl, rfl, rfl, .rate call, by simp, unanswered_request ..⟩)
  | enabling call =>
      cases error with
      | some error => exact .inl ⟨rfl, line_dispatch _ rfl rfl, rfl, rfl⟩
      | none => exact .inr (.inl ⟨rfl, rfl, rfl, .enable call, by simp, unanswered_request ..⟩)
  | voting call => exact .inl ⟨rfl, line_dispatch s rfl rfl, rfl, rfl⟩
  | details refresh => exact .inr (.inr ⟨refresh, rfl, handle_details_line .., rfl, rfl⟩)

variable {enabledBots : AList fun _ : ChatBotId => Bool} {wasStartedBefore : Bool}

/-- What a step does to the refreshes. -/
theorem step_line {action : Action} (hstep : Step s action t) :
    (t.line = s.line ∧ t.started = s.started ∧ t.unanswered.Perm s.unanswered) ∨
    (t.line = s.line ∧ t.started = s.started + 1 ∧
      ∃ caller ≠ Caller.start, t.unanswered.Perm (⟨s.started, caller⟩ :: s.unanswered)) ∨
    ∃ i data error url refresh, action = .respond i data error ∧
      s.tasks[i]? = some ⟨url, .details refresh⟩ ∧ t.line = s.lineWith refresh ∧
      t.started = s.started ∧ s.unanswered.Perm (refresh :: t.unanswered) := by
  cases hstep with
  | startedBefore => exact .inl ⟨rfl, rfl, .refl _⟩
  | firstStart | rateBot | enableBot | isBotRatedBy =>
      exact .inl ⟨rfl, rfl, .of_eq (unanswered_request_other _ _ rfl)⟩
  | responded i data error task htask =>
      obtain ⟨url, handler⟩ := task
      have herased := unanswered_erase htask
      rcases handle_line { s with tasks := s.tasks.eraseIdx i } handler data error with
        ⟨hnone, hline, hstarted, hsame⟩ | ⟨hnone, hline, hstarted, caller, hcaller, hnew⟩ |
          ⟨refresh, rfl, hline, hstarted, hsame⟩
      · rw [hnone] at herased
        exact .inl ⟨hline, hstarted, hsame ▸ herased.symm⟩
      · rw [hnone] at herased
        refine .inr (.inl ⟨hline, hstarted, caller, hcaller, ?_⟩)
        rw [hnew]
        exact List.perm_append_comm.trans (herased.symm.cons _)
      · refine .inr (.inr ⟨i, data, error, url, refresh, rfl, htask, hline, hstarted, ?_⟩)
        rw [hsame]
        exact herased
  | ran block rest hmain =>
      obtain ⟨htasks, hstarted, _⟩ := run_main_frame { s with main := rest } block
      exact .inl ⟨line_run_main hmain, hstarted, by rw [State.unanswered, htasks]; rfl⟩

/-- Every refresh has a number of its own, and that of `init` is the first. -/
structure Numbered (s : State) : Prop where
  distinct : (s.unanswered.map Refresh.number ++ s.line).Nodup
  below : ∀ number ∈ s.unanswered.map Refresh.number ++ s.line, number < s.started
  start : ∀ refresh ∈ s.unanswered, refresh.caller = .start → refresh.number = 0

theorem line_with_perm (s : State) (refresh : Refresh) :
    (s.lineWith refresh).Perm (refresh.number :: s.line) := by
  unfold State.lineWith
  split
  · rw [List.append_assoc]
    exact List.perm_middle
  · exact List.perm_append_comm

theorem Numbered.step (h : Numbered s) {action : Action} (hstep : Step s action t) :
    Numbered t := by
  rcases step_line hstep with ⟨hline, hstarted, hperm⟩ |
    ⟨hline, hstarted, caller, hcaller, hperm⟩ |
    ⟨i, data, error, url, refresh, _, _, hline, hstarted, hperm⟩
  · have hnumbers := (hperm.map Refresh.number).append_right s.line
    refine ⟨?_, fun number hnumber => ?_, fun refresh hrefresh =>
      h.start refresh (hperm.mem_iff.mp hrefresh)⟩
    · rw [hline]
      exact hnumbers.nodup_iff.mpr h.distinct
    · rw [hline] at hnumber
      exact hstarted ▸ h.below number (hnumbers.mem_iff.mp hnumber)
  · have hnumbers := (hperm.map Refresh.number).append_right s.line
    rw [List.map_cons, List.cons_append] at hnumbers
    refine ⟨?_, fun number hnumber => ?_, fun refresh hrefresh hstart => ?_⟩
    · rw [hline]
      exact hnumbers.nodup_iff.mpr (List.nodup_cons.mpr
        ⟨fun hmem => Nat.lt_irrefl _ (h.below s.started hmem), h.distinct⟩)
    · rw [hline] at hnumber
      rw [hstarted]
      rcases List.mem_cons.mp (hnumbers.mem_iff.mp hnumber) with rfl | hold
      · exact Nat.lt_succ_self _
      · exact Nat.lt_succ_of_lt (h.below number hold)
    · rcases List.mem_cons.mp (hperm.mem_iff.mp hrefresh) with rfl | hold
      · exact absurd hstart hcaller
      · exact h.start refresh hold hstart
  · have hnumbers : (s.unanswered.map Refresh.number ++ s.line).Perm
        (t.unanswered.map Refresh.number ++ t.line) := by
      rw [hline]
      calc s.unanswered.map Refresh.number ++ s.line
          _ ~ refresh.number :: (t.unanswered.map Refresh.number ++ s.line) :=
            (hperm.map Refresh.number).append_right s.line
          _ ~ t.unanswered.map Refresh.number ++ refresh.number :: s.line :=
            List.perm_middle.symm
          _ ~ t.unanswered.map Refresh.number ++ s.lineWith refresh :=
            (line_with_perm s refresh).symm.append_left _
    exact ⟨hnumbers.nodup_iff.mp h.distinct,
      fun number hnumber => hstarted ▸ h.below number (hnumbers.mem_iff.mpr hnumber),
      fun other hother => h.start other (hperm.mem_iff.mpr (List.mem_cons_of_mem _ hother))⟩

theorem Numbered.initial : Numbered (.initial enabledBots wasStartedBefore) where
  distinct := List.nodup_singleton 0
  below := by simp [State.initial, getTreshovieBots, request, State.unanswered, State.line,
    State.front, Handler.refresh?]
  start := by simp [State.initial, getTreshovieBots, request, State.unanswered,
    Handler.refresh?]

/-- An answer that meets the condition keeps the line in increasing order. -/
theorem Numbered.line_with (h : Numbered s) (hline : s.line.Pairwise (· < ·)) {refresh : Refresh}
    (hrefresh : refresh ∈ s.unanswered)
    (hlater : ∀ number ∈ (if refresh.caller = .start then s.front else s.line),
      number < refresh.number) :
    (s.lineWith refresh).Pairwise (· < ·) := by
  unfold State.lineWith
  split at hlater
  case isTrue hcaller =>
    -- nothing is stored yet, and what will be passed on has another number than 0
    have hzero : refresh.number = 0 := h.start refresh hrefresh hcaller
    have hnone : s.front = [] :=
      List.eq_nil_iff_forall_not_mem.mpr fun number hnumber =>
        Nat.not_lt_zero number (hzero ▸ hlater number hnumber)
    rw [if_pos hcaller, hnone, hzero]
    refine List.pairwise_cons.mpr ⟨fun number hnumber => ?_, ?_⟩
    · have hmem : number ∈ s.line := List.mem_append_right _ hnumber
      have hother : number ≠ 0 := fun hsame =>
        List.disjoint_of_nodup_append h.distinct
          (hzero ▸ List.mem_map_of_mem (f := Refresh.number) hrefresh) (hsame ▸ hmem)
      exact Nat.pos_of_ne_zero hother
    · exact hline.sublist (List.sublist_append_right _ _)
  case isFalse hcaller =>
    rw [if_neg hcaller]
    refine List.pairwise_append.mpr ⟨hline, List.pairwise_singleton _ _, ?_⟩
    intro number hnumber last hlast
    rw [List.mem_singleton.mp hlast]
    exact hlater number hnumber

theorem Numbered.line_step (h : Numbered s) (hline : s.line.Pairwise (· < ·)) {action : Action}
    (hok : inOrder s action = true) (hstep : Step s action t) : t.line.Pairwise (· < ·) := by
  rcases step_line hstep with ⟨hsame, _⟩ | ⟨hsame, _⟩ |
    ⟨i, data, error, url, refresh, rfl, htask, hnew, _, hperm⟩
  · exact hsame ▸ hline
  · exact hsame ▸ hline
  · rw [hnew]
    refine h.line_with hline (hperm.mem_iff.mpr List.mem_cons_self) ?_
    simpa only [inOrder, htask, List.all_eq_true, decide_eq_true_eq] using hok

/-- The block of a refresh that succeeded stores what the refresh brought. -/
def Block.Succeeded : Block → Prop
  | .received _ outcome => outcome.isSome
  | .store _ outcome result => outcome = some result
  | .voteFailed .. | .enablingFailed _ | .rated .. => True

/-- The table is the one that the last refresh brought. -/
structure Brought (s : State) : Prop where
  main : ∀ block ∈ s.main, block.Succeeded
  table : ∀ application, s.applied.getLast? = some application →
    application.outcome = some s.botsDetailsFromBack

theorem Brought.store (h : Brought s) (refresh : Refresh) (result : Table) :
    Brought (store s refresh (some result) result) where
  main := h.main
  table application hlast := by
    rw [Details.store, List.getLast?_concat] at hlast
    cases hlast
    rfl

theorem Brought.runMain (h : Brought s) {block : Block} (hblock : block.Succeeded) :
    Brought (Details.runMain s block) := by
  cases block with
  | received refresh outcome =>
      obtain ⟨number, caller⟩ := refresh
      obtain ⟨result, rfl⟩ := Option.isSome_iff_exists.mp hblock
      cases caller with
      | start => exact h.store _ result
      | firstStart | rate | enable =>
          exact ⟨List.forall_mem_append.mpr ⟨h.main, List.forall_mem_singleton.mpr rfl⟩, h.table⟩
  | store refresh outcome result =>
      obtain ⟨number, caller⟩ := refresh
      cases hblock
      have hstore := h.store ⟨number, caller⟩ result
      cases caller <;> exact ⟨hstore.main, hstore.table⟩
  | voteFailed | enablingFailed | rated => exact ⟨h.main, h.table⟩

theorem Brought.step (h : Brought s) {action : Action} (hok : succeeds s action = true)
    (hstep : Step s action t) : Brought t := by
  rcases step_effect hstep with ⟨htable, happlied, _, _, hmain⟩ | ⟨rfl, block, rest, hmain, rfl⟩
  · refine ⟨?_, by rw [htable, happlied]; exact h.table⟩
    rcases hmain with hsame | ⟨i, data, error, ⟨url, handler⟩, rfl, htask, hmain⟩
    · exact hsame ▸ h.main
    · rw [hmain]
      refine List.forall_mem_append.mpr ⟨h.main, fun block hblock => ?_⟩
      cases handler with
      | details refresh =>
          rw [List.mem_singleton.mp hblock]
          simpa only [succeeds, htask, Block.Succeeded] using hok
      | firstStart => cases hblock
      | vote | enabling =>
          cases error with
          | none => cases hblock
          | some error =>
              rw [List.mem_singleton.mp hblock]
              trivial
      | voting =>
          rw [List.mem_singleton.mp hblock]
          trivial
  · obtain ⟨hblock, hrest⟩ := List.forall_mem_cons.mp (hmain ▸ h.main)
    exact Brought.runMain (s := { s with main := rest }) ⟨hrest, h.table⟩ hblock

/-- When a vote has been answered without an error, a refresh has been stored that was started
after the vote had succeeded. -/
def Voted (s : State) : Prop :=
  ∀ answer ∈ s.answers, answer.report = .rateBot none →
    ∃ request ∈ s.ended, request.call = answer.call ∧ request.error = none ∧
      ∃ application ∈ s.applied, request.started ≤ application.refresh

theorem Voted.step (h : Voted s) (hrecorded : Recorded s) {action : Action}
    (hstep : Step s action t) (htrecorded : Recorded t) : Voted t := by
  obtain ⟨hended, happlied⟩ : s.ended ⊆ t.ended ∧ s.applied ⊆ t.applied := by
    rcases step_effect hstep with ⟨_, happlied, _, hended, _⟩ | ⟨_, block, rest, _, rfl⟩
    · exact ⟨hended, by rw [happlied]; exact List.Subset.refl _⟩
    · obtain ⟨_, _, _, hended, happlied⟩ := run_main_frame { s with main := rest } block
      exact ⟨by rw [hended]; exact List.Subset.refl _, happlied⟩
  have hkept : ∀ answer ∈ s.answers, answer.report = .rateBot none →
      ∃ request ∈ t.ended, request.call = answer.call ∧ request.error = none ∧
        ∃ application ∈ t.applied, request.started ≤ application.refresh := by
    intro answer hanswer hreport
    obtain ⟨request, hrequest, hcall, herror, application, happlication, hstarted⟩ :=
      h answer hanswer hreport
    exact ⟨request, hended hrequest, hcall, herror, application, happlied happlication, hstarted⟩
  intro answer hanswer hreport
  by_cases hanswered : t.answers = s.answers
  · exact hkept answer (hanswered ▸ hanswer) hreport
  · obtain ⟨_, new, hnew, hstores⟩ := hrecorded.answer hstep hanswered
    rcases List.mem_append.mp (hnew ▸ hanswer) with hold | hlast
    · exact hkept answer hold hreport
    · cases List.mem_singleton.mp hlast
      obtain ⟨request, hrequest, hcall, herror⟩ := (htrecorded.answers _ hanswer).2 none hreport
      obtain ⟨application, hstored, hstarted, _⟩ := hstores request hrequest hcall herror
      exact ⟨request, hrequest, hcall, herror, application, by simp [hstored], hstarted⟩

/-- What is true of each state of a run that meets the condition. -/
structure Ordered (s : State) : Prop where
  accounted : Accounted s
  recorded : Recorded s
  numbered : Numbered s
  brought : Brought s
  voted : Voted s
  line : s.line.Pairwise (· < ·)

theorem Ordered.initial : Ordered (.initial enabledBots wasStartedBefore) where
  accounted := .initial
  recorded := .initial
  numbered := .initial
  brought := by
    constructor <;> simp [State.initial, getTreshovieBots, request]
  voted := by simp [Voted, State.initial, getTreshovieBots, request]
  line := .nil

theorem Ordered.step (h : Ordered s) {action : Action}
    (hok : (succeeds s action && inOrder s action) = true) (hstep : Step s action t) :
    Ordered t := by
  obtain ⟨hsucceeds, hinorder⟩ := Bool.and_eq_true_iff.mp hok
  have hrecorded := h.recorded.step h.accounted hstep
  exact {
    accounted := h.accounted.step hstep
    recorded := hrecorded
    numbered := h.numbered.step hstep
    brought := h.brought.step hsucceeds hstep
    voted := h.voted.step h.recorded hstep hrecorded
    line := h.numbered.line_step h.line hinorder hstep }

/-- When all refreshes succeed and are answered in order, they are stored in the order in which
they were started, and the table is the one that the last of them brought. Once a vote has been
answered without an error, that one was started after the vote had succeeded. -/
theorem details_never_go_back
    (h : ((machine enabledBots wasStartedBefore).restrict
      fun s action => succeeds s action && inOrder s action).Reachable s) :
    (s.applied.map Application.refresh).Pairwise (· < ·) ∧
    (∀ application, s.applied.getLast? = some application →
      application.outcome = some s.botsDetailsFromBack) ∧
    ∀ answer ∈ s.answers, answer.report = .rateBot none →
      ∃ request ∈ s.ended, request.call = answer.call ∧ request.error = none ∧
        ∃ application, s.applied.getLast? = some application ∧
          request.started ≤ application.refresh := by
  have hordered : Ordered s := h.restrict_induction (P := Ordered) .initial
    fun _ _ _ _ hs hok hnext => hs.step hok (step_of_next hnext)
  have happlied : (s.applied.map Application.refresh).Pairwise (· < ·) :=
    hordered.line.sublist ((List.sublist_append_left _ _).trans (List.sublist_append_left _ _))
  refine ⟨happlied, hordered.brought.table, fun answer hanswer hreport => ?_⟩
  obtain ⟨request, hrequest, hcall, herror, application, happlication, hstarted⟩ :=
    hordered.voted answer hanswer hreport
  have hnone : s.applied ≠ [] := List.ne_nil_of_mem happlication
  have hlatest : application.refresh ≤ (s.applied.getLast hnone).refresh := by
    have hle := (happlied.imp Nat.le_of_lt).rel_getLast (List.mem_map_of_mem happlication)
    rwa [List.getLast_map] at hle
  exact ⟨request, hrequest, hcall, herror, s.applied.getLast hnone,
    List.getLast?_eq_getLast_of_ne_nil hnone, Nat.le_trans hstarted hlatest⟩

/-- Two votes with their refreshes answered in order, after the one of `init`. -/
theorem details_never_go_back_run :
    ∃ s : State,
      ((machine ∅ true).restrict fun s action =>
        succeeds s action && inOrder s action).Reachable s ∧
      s.applied.map Application.refresh = [0, 1, 2] ∧
      (s.applied.map Application.refresh).Pairwise (· < ·) := by
  obtain ⟨s, hreach, hstored⟩ :=
    ((machine ∅ true).restrict fun s action =>
      succeeds s action && inOrder s action).exists_reachable
      [.rateBot (.named "a") 5 1, .rateBot (.named "b") 4 1, .respond 1 none none,
        .respond 1 none none, .respond 1 none none, .respond 0 none none, .respond 0 none none,
        .runBlock, .runBlock, .runBlock, .runBlock, .runBlock]
      (fun s => s.applied.map Application.refresh = [0, 1, 2]) (by decide)
  exact ⟨s, hreach, hstored, (details_never_go_back hreach).1⟩

/-- The refreshes of two votes are answered in the opposite order: when both votes have been
answered, the details are those from before the second one. -/
theorem details_go_back :
    ∃ s : State, ((machine ∅ true).restrict succeeds).Reachable s ∧
      ¬ (s.applied.map Application.refresh).Pairwise (· < ·) :=
  ((machine ∅ true).restrict succeeds).exists_reachable
    [.rateBot (.named "a") 5 1, .rateBot (.named "b") 4 1, .respond 1 none none,
      .respond 1 none none,
      .respond 2 (some ⟨some [⟨"a", "", "", "", "", "", "5", "1"⟩,
        ⟨"b", "", "", "", "", "", "4", "1"⟩], none⟩) none,
      .respond 1 (some ⟨some [⟨"a", "", "", "", "", "", "5", "1"⟩], none⟩) none,
      .runBlock, .runBlock, .runBlock, .runBlock]
    (fun s => ¬ (s.applied.map Application.refresh).Pairwise (· < ·)) (by decide)

/-- The number of block runs that are left. -/
def State.runsLeft (s : State) : Nat :=
  s.main.length + (s.main.filterMap Block.passes?).length

theorem runs_left_run_main {block : Block} {rest : List Block} (hmain : s.main = block :: rest) :
    (runMain { s with main := rest } block).runsLeft < s.runsLeft := by
  cases block with
  | received refresh outcome =>
      obtain ⟨number, caller⟩ := refresh
      cases caller <;>
        simp [State.runsLeft, runMain, store, dispatch, hmain, Block.passes?]
  | store refresh outcome result =>
      obtain ⟨number, caller⟩ := refresh
      cases caller <;>
        simp [State.runsLeft, runMain, store, report, hmain, List.filterMap_cons, Block.passes?]
  | voteFailed | enablingFailed | rated =>
      simp [State.runsLeft, runMain, report, hmain, List.filterMap_cons, Block.passes?]

/-- Whatever the condition looks at is in line before the refresh that is answered. -/
theorem before_line_with {refresh : Refresh} (h : (s.lineWith refresh).Pairwise (· < ·))
    {number : Nat} (hnumber : number ∈ (if refresh.caller = .start then s.front else s.line)) :
    number < refresh.number := by
  unfold State.lineWith at h
  split at hnumber
  case isTrue hcaller =>
    rw [if_pos hcaller] at h
    have hfront := (List.pairwise_append.mp h).1
    exact (List.pairwise_append.mp hfront).2.2 number hnumber _ List.mem_cons_self
  case isFalse hcaller =>
    rw [if_neg hcaller] at h
    exact (List.pairwise_append.mp h).2.2 number hnumber _ List.mem_cons_self

section

variable (enabledBots wasStartedBefore)

/-- When the main queue runs dry, everything in the line has been stored. -/
theorem runs_line (s : State) :
    ∃ t, ((machine enabledBots wasStartedBefore).restrict succeeds).Reaches s t ∧
      t.applied.map Application.refresh = s.line := by
  induction hruns : s.runsLeft using Nat.strong_induction_on generalizing s with
  | _ runs ih =>
      cases hmain : s.main with
      | nil => exact ⟨s, .refl s, by simp [State.line, State.front, hmain]⟩
      | cons block rest =>
          obtain ⟨t, hreaches, hline⟩ :=
            ih _ (hruns ▸ runs_left_run_main hmain) (runMain { s with main := rest } block) rfl
          have hnext : ((machine enabledBots wasStartedBefore).restrict succeeds).next s .runBlock =
              some (runMain { s with main := rest } block) :=
            Machine.restrict_next_eq_some.mpr ⟨rfl, by simp [machine, hmain]⟩
          exact ⟨t, (Machine.Reaches.step hnext).trans hreaches, hline.trans (line_run_main hmain)⟩

/-- After an answer that does not meet the condition the details go back. -/
theorem order_broken {action : Action} (hsucceeds : succeeds s action = true)
    (h : inOrder s action = false) :
    ∃ t, ((machine enabledBots wasStartedBefore).restrict succeeds).Reaches s t ∧
      ¬ (t.applied.map Application.refresh).Pairwise (· < ·) := by
  cases action with
  | respond i data error =>
      simp only [inOrder] at h
      split at h
      · rename_i url refresh htask
        obtain ⟨number, hnumber, hlater⟩ : ∃ number ∈
            (if refresh.caller = .start then s.front else s.line), refresh.number ≤ number := by
          simpa using h
        have hnext : ((machine enabledBots wasStartedBefore).restrict succeeds).next s
            (.respond i data error) = some
              (handle { s with tasks := s.tasks.eraseIdx i } (.details refresh) data error) :=
          Machine.restrict_next_eq_some.mpr ⟨hsucceeds, by simp [machine, htask]⟩
        have hwith : (handle { s with tasks := s.tasks.eraseIdx i } (.details refresh) data
            error).line = s.lineWith refresh := handle_details_line ..
        obtain ⟨t, hreaches, hline⟩ := runs_line enabledBots wasStartedBefore
          (handle { s with tasks := s.tasks.eraseIdx i } (.details refresh) data error)
        refine ⟨t, (Machine.Reaches.step hnext).trans hreaches, fun hordered => ?_⟩
        rw [hline, hwith] at hordered
        exact absurd (before_line_with hordered hnumber) (Nat.not_lt.mpr hlater)
      · cases h
  | _ => cases h

end

end AiGramLib.Details
