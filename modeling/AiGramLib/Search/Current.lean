import AiGramLib.Search.Newest

/-!
# When only current results are shown

An operation compares its text with the newest one once, before it filters; nothing is compared
again when its main block runs. A search for another text that comes in between makes its result
out of date, and it is shown all the same. `current_results` shows that this is the only way:
results are current in every run in which a search is made only while the operations past their
guards and the pending main blocks are for the same text. `stale_result` shows that no weaker
condition on the search would do.
-/

namespace AiGramLib.Search

open Transition

variable {Text : Type}

/-- The request of the running operation, once it has passed its guard. -/
def Running.passed (running : Running Text) : Option (Request Text) :=
  match running.stage with
  | .guard => none
  | .filter | .dispatch _ => some running.request

@[simp] theorem passed_guard (request : Request Text) :
    (⟨request, .guard⟩ : Running Text).passed = none := rfl

@[simp] theorem passed_filter (request : Request Text) :
    (⟨request, .filter⟩ : Running Text).passed = some request := rfl

@[simp] theorem passed_dispatch (request : Request Text) (result : List ChatBot) :
    (⟨request, .dispatch result⟩ : Running Text).passed = some request := rfl

/-- The requests whose completions will be invoked, whatever happens. -/
def State.committed (s : State Text) : List (Request Text) :=
  s.main.map Block.request ++ s.running.toList.filterMap Running.passed

/-- A search is made only while all that is committed is for the same text. -/
def keepsCurrent [DecidableEq Text] (s : State Text) : Action Text → Bool
  | .search text => s.committed.all fun request => request.text = text
  | _ => true

/-- What is committed is for the newest text, and so was every completion when it was invoked. -/
structure Current (s : State Text) : Prop where
  committed : ∀ request ∈ s.committed, s.calls.getLast? = some request.text
  answers : ∀ answer ∈ s.answers, answer.latest = some answer.block.request.text

theorem Current.initial (bots : List ChatBot) : Current (.initial bots : State Text) where
  committed := by simp [State.initial, State.committed]
  answers := by simp [State.initial]

variable [DecidableEq Text] {s t : State Text} {strings : StringOperations Text}
  {bots : List ChatBot}

/-- A step that is not a search commits at most the running operation, and only if its guard
finds its text to be the newest. -/
theorem step_committed {action : Action Text} (h : Step strings s action t)
    (hsearch : ∀ text, action ≠ .search text) :
    t.calls = s.calls ∧
    ∀ request ∈ t.committed, request ∈ s.committed ∨ s.lastSearchText = some request.text := by
  cases h with
  | searched text => exact absurd rfl (hsearch text)
  | appended newBot => exact ⟨rfl, fun other hother => .inl hother⟩
  | started request rest hrunning hqueue =>
      exact ⟨rfl, fun other hother => .inl (by simpa [State.committed, hrunning] using hother)⟩
  | passed request hrunning hmatch =>
      refine ⟨rfl, fun other hother => ?_⟩
      simp only [State.committed, hrunning, Option.toList_some, List.filterMap_cons,
        passed_filter, List.filterMap_nil, List.mem_append, List.mem_singleton] at hother ⊢
      rcases hother with hold | rfl
      · exact .inl (.inl hold)
      · exact .inr hmatch
  | dropped request hrunning hmatch =>
      exact ⟨rfl, fun other hother => .inl (by simpa [State.committed, hrunning] using hother)⟩
  | filtered request hrunning =>
      exact ⟨rfl, fun other hother => .inl (by simpa [State.committed, hrunning] using hother)⟩
  | dispatched request result hrunning =>
      exact ⟨rfl, fun other hother => .inl (by simpa [State.committed, hrunning] using hother)⟩
  | ran block rest hmain =>
      refine ⟨rfl, fun other hother => .inl ?_⟩
      simp only [State.committed, hmain, List.map_cons, List.cons_append] at hother ⊢
      exact List.mem_cons_of_mem _ hother

/-- The only new answer is that of the next main block, which is committed. -/
theorem step_answers {action : Action Text} (h : Step strings s action t) {answer : Answer Text}
    (hanswer : answer ∈ t.answers) : answer ∈ s.answers ∨
      answer.latest = s.calls.getLast? ∧ answer.block.request ∈ s.committed := by
  cases h with
  | searched text =>
      by_cases hsame : s.lastSearchText = some text <;>
        exact .inl (by simpa [search, hsame] using hanswer)
  | appended | started | passed | dropped | filtered | dispatched => exact .inl hanswer
  | ran block rest hmain =>
      rcases List.mem_append.mp hanswer with hold | hnew
      · exact .inl hold
      · rw [List.mem_singleton.mp hnew]
        exact .inr ⟨rfl, by simp [State.committed, hmain]⟩

theorem committed_search (s : State Text) (text : Text) :
    (search s text).committed = s.committed := by
  by_cases hsame : s.lastSearchText = some text <;> simp [State.committed, search, hsame]

/-- A step that meets the condition keeps everything current. -/
theorem Current.step (h : Current s) (hordered : Ordered s) {action : Action Text}
    (hkeeps : keepsCurrent s action = true)
    (hnext : (machine strings bots).next s action = some t) : Current t := by
  have hanswers : ∀ answer ∈ t.answers, answer.latest = some answer.block.request.text := by
    intro answer hanswer
    rcases step_answers (step_of_next hnext) hanswer with hold | ⟨hlatest, hcommitted⟩
    · exact h.answers answer hold
    · exact hlatest.trans (h.committed _ hcommitted)
  by_cases hsearch : ∃ text, action = .search text
  · obtain ⟨text, rfl⟩ := hsearch
    cases hnext
    refine ⟨fun request hrequest => ?_, hanswers⟩
    rw [committed_search] at hrequest
    have hsame := List.all_eq_true.mp hkeeps request hrequest
    simp [search, of_decide_eq_true hsame]
  · obtain ⟨hcalls, hcommitted⟩ :=
      step_committed (step_of_next hnext) fun text heq => hsearch ⟨text, heq⟩
    refine ⟨fun request hrequest => ?_, hanswers⟩
    rw [hcalls]
    rcases hcommitted request hrequest with hold | hmatch
    · exact h.committed request hold
    · exact hordered.latest.symm.trans hmatch

/-- In every run that meets the condition, a completion is invoked only while its text is that of
the most recent call. -/
theorem current_results
    (h : ((machine strings bots).restrict keepsCurrent).Reachable s) :
    ∀ answer ∈ s.answers, answer.latest = some answer.block.request.text :=
  (h.restrict_induction (P := Current) (Current.initial bots)
    fun _ _ _ hreach hcurrent hkeeps hnext =>
      hcurrent.step (ordered_of_reachable hreach) hkeeps hnext).answers

section

variable (strings bots)

/-- Every pending main block can run without another call coming in between. -/
theorem delivers_pending (block : Block Text) (hblock : block ∈ s.main) :
    ∃ t, (machine strings bots).Reaches s t ∧
      ∃ answer ∈ t.answers, answer.block = block ∧ answer.latest = s.calls.getLast? := by
  induction hmain : s.main generalizing s with
  | nil => simp [hmain] at hblock
  | cons first rest ih =>
      have hnext : (machine strings bots).next s .runBlock = some { s with
          main := rest, answers := s.answers ++ [⟨first, s.calls.getLast?⟩] } := by
        simp [machine, runBlock, hmain]
      rw [hmain] at hblock
      rcases List.mem_cons.mp hblock with rfl | hlater
      · exact ⟨_, .step hnext, ⟨block, s.calls.getLast?⟩, by simp, rfl, rfl⟩
      · obtain ⟨t, hreaches, hanswer⟩ := ih (s := { s with
          main := rest, answers := s.answers ++ [⟨first, s.calls.getLast?⟩] }) hlater rfl
        exact ⟨t, (Machine.Reaches.step hnext).trans hreaches, hanswer⟩

/-- So can the dispatch of the running operation, with its main block after it. -/
theorem delivers_dispatched {request : Request Text} {result : List ChatBot}
    (hrunning : s.running = some ⟨request, .dispatch result⟩) :
    ∃ t, (machine strings bots).Reaches s t ∧
      ∃ answer ∈ t.answers, answer.block = ⟨request, result⟩ ∧
        answer.latest = s.calls.getLast? := by
  have hnext : (machine strings bots).next s .proceed = some { s with
      running := none, main := s.main ++ [⟨request, result⟩] } := by
    simp [machine, proceed, hrunning]
  obtain ⟨t, hreaches, hanswer⟩ := delivers_pending strings bots
    (s := { s with running := none, main := s.main ++ [⟨request, result⟩] })
    ⟨request, result⟩ (by simp)
  exact ⟨t, (Machine.Reaches.step hnext).trans hreaches, hanswer⟩

/-- Whatever is committed is delivered, if no call comes in between. -/
theorem delivers_committed {request : Request Text} (hrequest : request ∈ s.committed) :
    ∃ t, (machine strings bots).Reaches s t ∧
      ∃ answer ∈ t.answers, answer.block.request = request ∧
        answer.latest = s.calls.getLast? := by
  rcases List.mem_append.mp hrequest with hpending | hpassed
  · obtain ⟨block, hblock, rfl⟩ := List.mem_map.mp hpending
    obtain ⟨t, hreaches, answer, hanswer, rfl, hlatest⟩ :=
      delivers_pending strings bots block hblock
    exact ⟨t, hreaches, answer, hanswer, rfl, hlatest⟩
  · obtain ⟨⟨own, stage⟩, hrunning, hown⟩ := List.mem_filterMap.mp hpassed
    rw [Option.mem_toList] at hrunning
    cases stage with
    | guard => cases hown
    | filter =>
        cases hown
        let result := s.bots.filter fun bot => bot.isAcceptedWithText strings own.text
        have hnext : (machine strings bots).next s .proceed = some { s with
            running := some ⟨own, .dispatch result⟩ } := by
          simp [machine, proceed, Option.mem_def.mp hrunning, result]
        obtain ⟨t, hreaches, answer, hanswer, hblock, hlatest⟩ :=
          delivers_dispatched strings bots
            (s := { s with running := some ⟨own, .dispatch result⟩ }) rfl
        exact ⟨t, (Machine.Reaches.step hnext).trans hreaches, answer, hanswer, by rw [hblock],
          hlatest⟩
    | dispatch result =>
        cases hown
        obtain ⟨t, hreaches, answer, hanswer, hblock, hlatest⟩ :=
          delivers_dispatched strings bots hrunning
        exact ⟨t, hreaches, answer, hanswer, by rw [hblock], hlatest⟩

/-- A search that does not meet the condition makes a result out of date that is still to be
shown. -/
theorem stale_result {text : Text} (h : keepsCurrent s (.search text) = false) :
    ∃ t, (machine strings bots).Reaches (search s text) t ∧
      ∃ answer ∈ t.answers, answer.latest ≠ some answer.block.request.text := by
  obtain ⟨request, hrequest, hother⟩ := List.all_eq_false.mp h
  rw [← committed_search s text] at hrequest
  obtain ⟨t, hreaches, answer, hanswer, rfl, hlatest⟩ :=
    delivers_committed strings bots hrequest
  refine ⟨t, hreaches, answer, hanswer, ?_⟩
  rw [hlatest]
  simpa [search, eq_comm] using hother

end

/-- Two searches one after the other, each answered before the next. -/
theorem current_results_run :
    ∃ s : State String, ((machine .ascii []).restrict keepsCurrent).Reachable s ∧
      s.answers.length = 2 ∧
      ∀ answer ∈ s.answers, answer.latest = some answer.block.request.text := by
  obtain ⟨s, hreach, hlength⟩ := ((machine .ascii []).restrict keepsCurrent).exists_reachable
    [.search "a", .start, .proceed, .proceed, .proceed, .runBlock,
      .search "b", .start, .proceed, .proceed, .proceed, .runBlock]
    (fun s : State String => s.answers.length = 2) (by decide)
  exact ⟨s, hreach, hlength, current_results hreach⟩

/-- The operation for "a" passes its guard, then "b" is searched for, then the result for "a" is
shown. -/
theorem result_not_current :
    ∃ s : State String, (machine .ascii []).Reachable s ∧
      ¬ ∀ answer ∈ s.answers, answer.latest = some answer.block.request.text :=
  (machine .ascii []).exists_reachable
    [.search "a", .start, .proceed, .proceed, .proceed, .search "b", .runBlock]
    (fun s : State String => ¬ ∀ answer ∈ s.answers, answer.latest = some answer.block.request.text)
    (by decide)

end AiGramLib.Search
