import AiGramLib.Library.Lineup
import AiGramLib.Search.Machine

/-!
# The newest search is answered

A request is in sight from its call until long after its answer: queued, running, with its main
block pending, or answered. `step_effect` says what each step does to the requests in sight, the
oldest first: a call may cancel some and adds one behind the others, a guard that fails drops the
running one, and no other step changes them. As `lastSearchText` is always the text of the
newest call, its request is never dropped, and once all is quiet it has been answered last
(`last_search_wins`).
-/

namespace AiGramLib.Search

open Lineup Transition

variable {Text : Type}

/-- The requests in sight, the oldest first. -/
def State.line (s : State Text) : List (Request Text) :=
  s.answers.map (fun answer => answer.block.request) ++ s.main.map Block.request ++
    s.running.toList.map Running.request ++ s.searchQueue

/-- What a step does to the requests in sight. -/
inductive Effect (s t : State Text) : Prop where
  | called (text : Text) (kept : List (Request Text)) (hkept : kept.Sublist s.line)
      (hline : t.line = kept ++ [⟨s.calls.length, text⟩]) (hcalls : t.calls = s.calls ++ [text])
      (hlast : t.lastSearchText = some text)
  | dropped (request : Request Text) (front back : List (Request Text))
      (hmatch : s.lastSearchText ≠ some request.text)
      (hbefore : s.line = front ++ request :: back) (hline : t.line = front ++ back)
      (hcalls : t.calls = s.calls) (hlast : t.lastSearchText = s.lastSearchText)
  | internal (hline : t.line = s.line) (hcalls : t.calls = s.calls)
      (hlast : t.lastSearchText = s.lastSearchText)

theorem effect_search [DecidableEq Text] (s : State Text) (text : Text) :
    Effect s (search s text) := by
  by_cases hsame : s.lastSearchText = some text
  · refine .called text s.line (List.Sublist.refl _) ?_ (by simp [search, hsame])
      (by simp [search])
    simp [State.line, search, hsame]
  · refine .called text (s.answers.map (fun answer => answer.block.request) ++
      s.main.map Block.request ++ s.running.toList.map Running.request) ?_ ?_
      (by simp [search, hsame]) (by simp [search])
    · exact List.sublist_append_left _ _
    · simp [State.line, search, hsame]

/-- The three things a step can do to the line. -/
theorem step_effect [DecidableEq Text] {s t : State Text} {strings : StringOperations Text}
    {action : Action Text} (h : Step strings s action t) : Effect s t := by
  cases h with
  | searched text => exact effect_search s text
  | appended newBot => exact .internal rfl rfl rfl
  | started request rest hrunning hqueue =>
      exact .internal (by simp [State.line, hrunning, hqueue]) rfl rfl
  | passed request hrunning hmatch => exact .internal (by simp [State.line, hrunning]) rfl rfl
  | dropped request hrunning hmatch =>
      exact .dropped request (s.answers.map (fun answer => answer.block.request) ++
        s.main.map Block.request) s.searchQueue hmatch (by simp [State.line, hrunning])
        (by simp [State.line]) rfl rfl
  | filtered request hrunning => exact .internal (by simp [State.line, hrunning]) rfl rfl
  | dispatched request result hrunning => exact .internal (by simp [State.line, hrunning]) rfl rfl
  | ran block rest hmain => exact .internal (by simp [State.line, hmain]) rfl rfl

/-- The requests in sight are numbered in order and carry the texts of their calls, and the
newest one is among them. -/
structure Ordered (s : State Text) : Prop where
  line : InLine (s.line.map Request.call) s.calls.length
  texts : ∀ request ∈ s.line, s.calls[request.call]? = some request.text
  latest : s.lastSearchText = s.calls.getLast?
  newest : ∀ text, s.calls.getLast? = some text → ⟨s.calls.length - 1, text⟩ ∈ s.line

section

variable {s t : State Text}

theorem Ordered.initial (bots : List ChatBot) : Ordered (.initial bots : State Text) where
  line := .nil 0
  texts := by simp [State.line, State.initial]
  latest := rfl
  newest := by simp [State.initial]

/-- Every step keeps the requests in order and the newest one in sight. -/
theorem Ordered.step (h : Ordered s) (heffect : Effect s t) : Ordered t := by
  cases heffect with
  | called text kept hkept hline hcalls hlast =>
      refine ⟨?_, ?_, by simp [hlast, hcalls], ?_⟩
      · rw [hline, hcalls]
        simpa using (h.line.sublist (hkept.map Request.call)).issue
      · intro request hrequest
        rw [hline] at hrequest
        rw [hcalls]
        rcases List.mem_append.mp hrequest with hold | hnew
        · have hbelow := h.line.below request.call
            (List.mem_map_of_mem (hkept.subset hold))
          rw [List.getElem?_append_left hbelow]
          exact h.texts request (hkept.subset hold)
        · rw [List.mem_singleton.mp hnew]
          simp
      · intro newest hnewest
        rw [hcalls, List.getLast?_append_of_ne_nil _ (by simp)] at hnewest
        rw [hline, hcalls]
        cases hnewest
        simp
  | dropped request front back hmatch hbefore hline hcalls hlast =>
      have hsublist : t.line.Sublist s.line := by
        rw [hline, hbefore]
        exact (List.sublist_cons_self request back).append_left front
      refine ⟨?_, ?_, by rw [hlast, hcalls, h.latest], ?_⟩
      · rw [hcalls]
        exact h.line.sublist (hsublist.map Request.call)
      · intro other hother
        rw [hcalls]
        exact h.texts other (hsublist.subset hother)
      · intro text htext
        rw [hcalls] at htext ⊢
        have hnewest := h.newest text htext
        rw [hbefore] at hnewest
        rw [hline]
        -- what is dropped has another text than the newest request
        have hne : (⟨s.calls.length - 1, text⟩ : Request Text) ≠ request := by
          rintro rfl
          exact hmatch (h.latest.trans htext)
        simpa [hne] using hnewest
  | internal hline hcalls hlast =>
      refine ⟨?_, ?_, ?_, ?_⟩
      · rw [hline, hcalls]
        exact h.line
      · rw [hline, hcalls]
        exact h.texts
      · rw [hlast, hcalls, h.latest]
      · rw [hline, hcalls]
        exact h.newest

end

/-- The numbers of the answered calls, as they stand at the head of the line. -/
theorem answered_sublist (s : State Text) :
    (s.answers.map fun answer => answer.block.request.call).Sublist
      (s.line.map Request.call) := by
  have hmap : (s.answers.map fun answer => answer.block.request.call) =
      (s.answers.map fun answer => answer.block.request).map Request.call := by simp
  rw [hmap, State.line, List.append_assoc, List.append_assoc]
  exact (List.sublist_append_left _ _).map _

/-- The blocks in sight: run, pending, or about to be dispatched. -/
def State.blocks (s : State Text) : List (Block Text) :=
  s.answers.map Answer.block ++ s.main ++ s.running.toList.filterMap fun running =>
    match running.stage with
    | .dispatch result => some ⟨running.request, result⟩
    | _ => none

section

variable [DecidableEq Text] {s t : State Text} {strings : StringOperations Text}
  {bots : List ChatBot}

/-- The only new block is the one that the filter of the running operation makes. -/
theorem step_blocks {action : Action Text} (h : Step strings s action t) {block : Block Text}
    (hblock : block ∈ t.blocks) : block ∈ s.blocks ∨
      s.running = some ⟨block.request, .filter⟩ ∧ block.result =
        s.bots.filter fun bot => bot.isAcceptedWithText strings block.request.text := by
  cases h with
  | searched text =>
      by_cases hsame : s.lastSearchText = some text <;>
        exact .inl (by simpa [State.blocks, search, hsame] using hblock)
  | appended newBot => exact .inl hblock
  | started request rest hrunning hqueue =>
      exact .inl (by simpa [State.blocks, hrunning] using hblock)
  | passed request hrunning hmatch => exact .inl (by simpa [State.blocks, hrunning] using hblock)
  | dropped request hrunning hmatch => exact .inl (by simpa [State.blocks, hrunning] using hblock)
  | filtered request hrunning =>
      simp only [State.blocks, Option.toList_some, List.filterMap_cons, List.filterMap_nil,
        List.mem_append, List.mem_singleton] at hblock
      rcases hblock with hold | rfl
      · exact .inl (List.mem_append.mpr (.inl (List.mem_append.mpr hold)))
      · exact .inr ⟨hrunning, rfl⟩
  | dispatched request result hrunning =>
      exact .inl (by simpa [State.blocks, hrunning] using hblock)
  | ran first rest hmain => exact .inl (by simpa [State.blocks, hmain] using hblock)

theorem ordered_of_reachable (h : (machine strings bots).Reachable s) : Ordered s :=
  h.induction (P := Ordered) (Ordered.initial bots) fun _ _ _ _ hordered hnext =>
    hordered.step (step_effect (step_of_next hnext))

/-- Every block was filtered by its operation out of the bots that were in the list then. -/
theorem filtered_of_reachable (h : (machine strings bots).Reachable s) : ∀ block ∈ s.blocks,
    ∃ before, (machine strings bots).Reachable before ∧ (machine strings bots).Reaches before s ∧
      before.running = some ⟨block.request, .filter⟩ ∧
      block.result = before.bots.filter fun bot =>
        bot.isAcceptedWithText strings block.request.text := by
  refine h.induction (P := fun s => ∀ block ∈ s.blocks, ∃ before,
      (machine strings bots).Reachable before ∧ (machine strings bots).Reaches before s ∧
      before.running = some ⟨block.request, .filter⟩ ∧
      block.result = before.bots.filter fun bot =>
        bot.isAcceptedWithText strings block.request.text)
    (by simp [machine, State.initial, State.blocks])
    fun state action following hreach hfiltered hnext block hblock => ?_
  rcases step_blocks (step_of_next hnext) hblock with hold | ⟨hrunning, hresult⟩
  · obtain ⟨before, hbefore, hafter, hblock⟩ := hfiltered block hold
    exact ⟨before, hbefore, hafter.trans (.step hnext), hblock⟩
  · exact ⟨state, hreach, .step hnext, hrunning, hresult⟩

/-- Completions are invoked at most once and in the order of the calls, each with the bots its
text accepts of those in the list when its operation filtered it; and once nothing is left to
run, the last one invoked is that of the last call. -/
theorem last_search_wins (h : (machine strings bots).Reachable s) :
    (s.answers.map fun answer => answer.block.request.call).Pairwise (· < ·) ∧
    (∀ answer ∈ s.answers,
      s.calls[answer.block.request.call]? = some answer.block.request.text ∧
      ∃ before, (machine strings bots).Reachable before ∧
        (machine strings bots).Reaches before s ∧
        before.running = some ⟨answer.block.request, .filter⟩ ∧
        answer.block.result = before.bots.filter fun bot =>
          bot.isAcceptedWithText strings answer.block.request.text) ∧
    (s.Quiescent → s.calls ≠ [] → ∃ answer, s.answers.getLast? = some answer ∧
      answer.block.request.call = s.calls.length - 1 ∧
      (s.answers.countP fun other => other.block.request.call == s.calls.length - 1) = 1) := by
  have hordered := ordered_of_reachable h
  have hanswered := hordered.line.sublist (answered_sublist s)
  refine ⟨hanswered.ordered, ?_, ?_⟩
  · intro answer hanswer
    refine ⟨hordered.texts answer.block.request ?_, filtered_of_reachable h answer.block ?_⟩
    · simp only [State.line, List.append_assoc]
      exact List.mem_append_left _ (List.mem_map_of_mem hanswer)
    · simp only [State.blocks, List.append_assoc]
      exact List.mem_append_left _ (List.mem_map_of_mem hanswer)
  · rintro ⟨hqueue, hrunning, hmain⟩ hcalls
    have htext := List.getLast?_eq_some_getLast hcalls
    have hlength : s.calls.length = s.calls.length - 1 + 1 := by
      have := List.length_pos_iff.mpr hcalls
      omega
    have hmem : s.calls.length - 1 ∈ s.answers.map fun answer => answer.block.request.call := by
      have hnewest := hordered.newest _ htext
      simp only [State.line, hqueue, hrunning, hmain, List.map_nil, Option.toList_none,
        List.append_nil] at hnewest
      obtain ⟨answer, hanswer, hrequest⟩ := List.mem_map.mp hnewest
      exact List.mem_map.mpr ⟨answer, hanswer, by rw [hrequest]⟩
    rw [hlength] at hanswered
    have hlast := hanswered.last hmem
    rw [List.getLast?_map] at hlast
    obtain ⟨answer, hanswer, hcall⟩ := Option.map_eq_some_iff.mp hlast
    refine ⟨answer, hanswer, hcall, ?_⟩
    have hcount := List.count_eq_one_of_mem hanswered.nodup hmem
    rwa [List.count_eq_countP, List.countP_map] at hcount

/-- A text that is searched for again while its first operation is still running: both are
answered, the second one last. -/
theorem last_search_wins_run :
    ∃ (s : State String) (answer : Answer String),
      (machine .ascii [.named "a", .named "b"]).Reachable s ∧ s.Quiescent ∧
      s.calls = ["A", "b", "A"] ∧
      s.answers.getLast? = some answer ∧ answer.block.request.call = 2 ∧
      answer.block.result = [.named "a"] := by
  obtain ⟨s, hreach, hquiescent, hcalls, hresults⟩ :=
    (machine .ascii [.named "a", .named "b"]).exists_reachable
      [.search "A", .start, .search "b", .search "A", .proceed, .proceed, .proceed, .start,
        .proceed, .proceed, .proceed, .runBlock, .runBlock]
      (fun s => s.Quiescent ∧ s.calls = ["A", "b", "A"] ∧
        (s.answers.map fun answer => answer.block.result) = [[.named "a"], [.named "a"]])
      (by decide)
  obtain ⟨answer, hlast, hcall, -⟩ :=
    (last_search_wins hreach).2.2 hquiescent (by simp [hcalls])
  refine ⟨s, answer, hreach, hquiescent, hcalls, hlast, by simpa [hcalls] using hcall, ?_⟩
  have hresult := congrArg List.getLast? hresults
  rw [List.getLast?_map, hlast] at hresult
  exact Option.some.inj hresult

end

end AiGramLib.Search
