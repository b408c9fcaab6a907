import AiGramLib.Search.Snapshots

/-!
# A bot that is there is found

`present_bot_found`: a bot that is in the list when a search is made is in its answer if the text
accepts it, whatever is searched or appended meanwhile. `found_names_nodup`: it is there once.
-/

namespace AiGramLib.Search

open Transition

variable {Text : Type}

/-- The bot is in the list, and the operations of searches from this call on have found it. -/
structure Present (strings : StringOperations Text) (first : Nat) (bot : ChatBot)
    (s : State Text) : Prop where
  listed : bot ∈ s.bots
  blocks : ∀ block ∈ s.blocks, first ≤ block.request.call →
    bot.isAcceptedWithText strings block.request.text = true → bot ∈ block.result

theorem mem_line_of_mem_blocks {s : State Text} {block : Block Text} (h : block ∈ s.blocks) :
    block.request ∈ s.line := by
  simp only [State.blocks, List.mem_append, List.mem_map, List.mem_filterMap] at h
  simp only [State.line, List.mem_append, List.mem_map]
  rcases h with (⟨answer, hanswer, rfl⟩ | hmain) | ⟨running, hrunning, hblock⟩
  · exact .inl (.inl (.inl ⟨answer, hanswer, rfl⟩))
  · exact .inl (.inl (.inr ⟨block, hmain, rfl⟩))
  · refine .inl (.inr ⟨running, hrunning, ?_⟩)
    split at hblock <;> cases hblock
    rfl

variable [DecidableEq Text] {strings : StringOperations Text} {bots : List ChatBot}
  {s t : State Text} {action : Action Text} {first : Nat} {bot : ChatBot}

theorem Present.step (h : Present strings first bot s) (hstep : Step strings s action t) :
    Present strings first bot t := by
  rcases step_blocks_eq hstep with ⟨hblocks, hbots⟩ | ⟨request, hblocks, hbots⟩
  · exact ⟨hbots.subset h.listed, by rw [hblocks]; exact h.blocks⟩
  · refine ⟨by rw [hbots]; exact h.listed, fun block hblock hfirst haccepted => ?_⟩
    rw [hblocks] at hblock
    rcases List.mem_append.mp hblock with hold | hnew
    · exact h.blocks block hold hfirst haccepted
    · rw [List.mem_singleton.mp hnew] at haccepted ⊢
      exact List.mem_filter.mpr ⟨h.listed, haccepted⟩

/-- Of the operations in sight none is of a search from now on. -/
theorem present_of_reachable (h : (machine strings bots).Reachable s) (hlisted : bot ∈ s.bots) :
    Present strings s.calls.length bot s := by
  refine ⟨hlisted, fun block hblock hfirst _ => ?_⟩
  have hlt := (ordered_of_reachable h).line.below block.request.call
    (List.mem_map_of_mem (mem_line_of_mem_blocks hblock))
  exact absurd hfirst (Nat.not_le.mpr hlt)

/-- A bot that is in the list when a search is made is found by it, if the text accepts it. -/
theorem present_bot_found (h : (machine strings bots).Reachable s) (hlisted : bot ∈ s.bots)
    (ht : (machine strings bots).Reaches s t) {answer : Answer Text} (hanswer : answer ∈ t.answers)
    (hmade : s.calls.length ≤ answer.block.request.call)
    (haccepted : bot.isAcceptedWithText strings answer.block.request.text = true) :
    bot ∈ answer.block.result := by
  have hpresent : Present strings s.calls.length bot t :=
    ht.invariant (present_of_reachable h hlisted) fun _ _ _ hstate hnext =>
      hstate.step (step_of_next hnext)
  refine hpresent.blocks answer.block ?_ hmade haccepted
  simp only [State.blocks, List.mem_append]
  exact .inl (.inl (List.mem_map_of_mem hanswer))

/-- No name is found twice, if none is in the list of bots twice. -/
theorem found_names_nodup (h : (machine strings bots).Reachable s)
    (hnames : (s.bots.map ChatBot.name).Nodup) {answer : Answer Text}
    (hanswer : answer ∈ s.answers) : (answer.block.result.map ChatBot.name).Nodup := by
  obtain ⟨snapshots, hfiltered⟩ := exists_filtered h
  obtain ⟨i, hi⟩ := List.mem_iff_getElem?.mp hanswer
  obtain ⟨hlt, hblock⟩ := List.getElem?_eq_some_iff.mp (blocks_of_answers hi)
  have hblocks := List.forall₂_iff_get.mp hfiltered.blocks
  have hresult := hblocks.2 i hlt (hblocks.1 ▸ hlt)
  rw [List.get_eq_getElem, hblock] at hresult
  rw [hresult]
  have hknown := hfiltered.bots _ (List.get_mem snapshots ⟨i, hblocks.1 ▸ hlt⟩)
  exact hnames.sublist ((List.filter_sublist.trans hknown.sublist).map _)

end AiGramLib.Search
