import AiGramLib.Search.Newest

/-!
# Two answers of one growing list

Each search is answered with a filter of the bots that are in the list at that time. The list
only grows at its end, and the filters run one at a time in the order of the answers, so what
separates two answers is known exactly: the text, and the bots added in between.
`searches_narrow` says so for any two answers of a run; when the later text contains the earlier
one, the later answer is the earlier one narrowed down, followed by new bots only.
-/

namespace AiGramLib

variable {Text : Type}

/-- What containment of strings has to do with emptiness and with itself. -/
structure StringOperations.Lawful (strings : StringOperations Text) : Prop where
  trans : ∀ {whole middle part}, strings.contains whole middle = true →
    strings.contains middle part = true → strings.contains whole part = true
  of_empty : ∀ {whole part}, strings.isEmpty whole = true → strings.contains whole part = true →
    strings.isEmpty part = true

theorem contains_ascii_iff {text part : String} :
    StringOperations.ascii.contains text part = true ↔ part.toList <:+: text.toList := by
  simp only [StringOperations.ascii, List.any_eq_true, List.mem_tails, List.isPrefixOf_iff_prefix]
  constructor
  · rintro ⟨rest, hsuffix, hbegins⟩
    exact hbegins.isInfix.trans hsuffix.isInfix
  · rintro ⟨front, back, hwhole⟩
    exact ⟨part.toList ++ back, ⟨front, by rw [← List.append_assoc, hwhole]⟩,
      List.prefix_append _ _⟩

theorem StringOperations.Lawful.of_ascii : StringOperations.ascii.Lawful where
  trans hmiddle hpart := by
    rw [contains_ascii_iff] at hmiddle hpart ⊢
    exact hpart.trans hmiddle
  of_empty {whole part} hwhole hpart := by
    have hempty : whole = "" := by simpa [StringOperations.ascii] using hwhole
    rw [contains_ascii_iff, hempty] at hpart
    have hnil : part.toList = [] := List.infix_nil.mp hpart
    simpa [StringOperations.ascii] using hnil

/-- A bot that a text finds is found by every text that this one contains. -/
theorem accepted_of_contains {strings : StringOperations Text} (hlawful : strings.Lawful)
    {bot : ChatBot} {text part : Text}
    (hcontains : strings.contains (strings.lowercased text) (strings.lowercased part) = true)
    (h : bot.isAcceptedWithText strings text = true) :
    bot.isAcceptedWithText strings part = true := by
  unfold ChatBot.isAcceptedWithText at h ⊢
  by_cases hpart : strings.isEmpty (strings.lowercased part) = true
  · simp only [hpart, if_true]
  have htext : ¬ strings.isEmpty (strings.lowercased text) = true := fun hempty =>
    hpart (hlawful.of_empty hempty hcontains)
  simp only [htext, hpart, Bool.false_eq_true, if_false, Bool.or_eq_true] at h ⊢
  rcases h with (htitle | hshort) | hfull
  · exact .inl (.inl (hlawful.trans htitle hcontains))
  · exact .inl (.inr (hlawful.trans hshort hcontains))
  · exact .inr (hlawful.trans hfull hcontains)

namespace Search

open Transition

/-- The bots of a list that the text of this request finds. -/
def Request.matches (strings : StringOperations Text) (request : Request Text)
    (bots : List ChatBot) : List ChatBot :=
  bots.filter fun bot => bot.isAcceptedWithText strings request.text

/-- The lists that the blocks in sight were filtered out of: each of them goes on where the one
before ended, and the list of bots where all of them did. -/
structure Filtered (strings : StringOperations Text) (s : State Text)
    (snapshots : List (List ChatBot)) : Prop where
  blocks : List.Forall₂ (fun block known => block.result = block.request.matches strings known)
    s.blocks snapshots
  ordered : snapshots.Pairwise (· <+: ·)
  bots : ∀ known ∈ snapshots, known <+: s.bots

variable [DecidableEq Text] {s t : State Text} {strings : StringOperations Text}
  {bots : List ChatBot}

/-- The blocks in sight stay as they are while the list of bots may grow, or the filter of the
running operation puts one more behind them. -/
theorem step_blocks_eq {action : Action Text} (h : Step strings s action t) :
    (t.blocks = s.blocks ∧ s.bots <+: t.bots) ∨
    ∃ request, t.blocks = s.blocks ++ [⟨request, request.matches strings s.bots⟩] ∧
      t.bots = s.bots := by
  cases h with
  | searched text =>
      refine .inl ?_
      by_cases hsame : s.lastSearchText = some text <;> simp [State.blocks, search, hsame]
  | appended newBot => exact .inl ⟨rfl, (prefix_append_bot s.bots newBot).1⟩
  | started request rest hrunning hqueue =>
      exact .inl ⟨by simp [State.blocks, hrunning], List.prefix_rfl⟩
  | passed request hrunning hmatch =>
      exact .inl ⟨by simp [State.blocks, hrunning], List.prefix_rfl⟩
  | dropped request hrunning hmatch =>
      exact .inl ⟨by simp [State.blocks, hrunning], List.prefix_rfl⟩
  | filtered request hrunning =>
      exact .inr ⟨request, by simp [State.blocks, hrunning, Request.matches], rfl⟩
  | dispatched request result hrunning =>
      exact .inl ⟨by simp [State.blocks, hrunning], List.prefix_rfl⟩
  | ran block rest hmain => exact .inl ⟨by simp [State.blocks, hmain], List.prefix_rfl⟩

theorem Filtered.step {snapshots : List (List ChatBot)} (h : Filtered strings s snapshots)
    {action : Action Text} (hstep : Step strings s action t) :
    ∃ following, Filtered strings t following := by
  rcases step_blocks_eq hstep with ⟨hblocks, hbots⟩ | ⟨request, hblocks, hbots⟩
  · exact ⟨snapshots, by rw [hblocks]; exact h.blocks, h.ordered,
      fun known hknown => (h.bots known hknown).trans hbots⟩
  · -- the new block is filtered out of the list as it stands, behind all earlier ones
    refine ⟨snapshots ++ [s.bots], ?_, ?_, ?_⟩
    · rw [hblocks]
      exact List.rel_append h.blocks (.cons rfl .nil)
    · refine List.pairwise_append.mpr ⟨h.ordered, List.pairwise_singleton _ _, ?_⟩
      intro known hknown other hother
      rw [List.mem_singleton.mp hother]
      exact h.bots known hknown
    · intro known hknown
      rw [hbots]
      rcases List.mem_append.mp hknown with hold | hnew
      · exact h.bots known hold
      · rw [List.mem_singleton.mp hnew]

theorem exists_filtered (h : (machine strings bots).Reachable s) :
    ∃ snapshots, Filtered strings s snapshots :=
  h.invariant (P := fun s => ∃ snapshots, Filtered strings s snapshots)
    ⟨[], by simp [machine, State.initial, State.blocks], .nil, by simp⟩
    fun _ _ _ ⟨_, hfiltered⟩ hnext => hfiltered.step (step_of_next hnext)

omit [DecidableEq Text] in
/-- The answers are the first of the blocks in sight. -/
theorem blocks_of_answers {i : Nat} {answer : Answer Text} (h : s.answers[i]? = some answer) :
    s.blocks[i]? = some answer.block := by
  have hmap : (s.answers.map Answer.block)[i]? = some answer.block := by simp [h]
  rw [State.blocks, List.append_assoc,
    List.getElem?_append_left (List.getElem?_eq_some_iff.mp hmap).1]
  exact hmap

/-- Two answers are filters of one growing list, the later one with the bots added in between;
and if the later text contains the earlier one, the later answer narrows the earlier one down
and adds new bots behind it. -/
theorem searches_narrow (hlawful : strings.Lawful) (h : (machine strings bots).Reachable s)
    {i j : Nat} (hij : i < j) {earlier later : Answer Text}
    (hearlier : s.answers[i]? = some earlier) (hlater : s.answers[j]? = some later) :
    ∃ known added, known ++ added <+: s.bots ∧
      earlier.block.result = earlier.block.request.matches strings known ∧
      later.block.result = later.block.request.matches strings (known ++ added) ∧
      (strings.contains (strings.lowercased later.block.request.text)
          (strings.lowercased earlier.block.request.text) = true →
        later.block.result = later.block.request.matches strings earlier.block.result ++
          later.block.request.matches strings added) := by
  obtain ⟨snapshots, hfiltered⟩ := exists_filtered h
  have hblocks := List.forall₂_iff_get.mp hfiltered.blocks
  obtain ⟨hi, hiblock⟩ := List.getElem?_eq_some_iff.mp (blocks_of_answers hearlier)
  obtain ⟨hj, hjblock⟩ := List.getElem?_eq_some_iff.mp (blocks_of_answers hlater)
  have hknown := hblocks.2 i hi (hblocks.1 ▸ hi)
  have hall := hblocks.2 j hj (hblocks.1 ▸ hj)
  rw [List.get_eq_getElem, hiblock] at hknown
  rw [List.get_eq_getElem, hjblock] at hall
  obtain ⟨added, hadded⟩ := List.pairwise_iff_getElem.mp hfiltered.ordered i j
    (hblocks.1 ▸ hi) (hblocks.1 ▸ hj) hij
  rw [List.get_eq_getElem] at hknown hall
  refine ⟨_, added, ?_, hknown, by rw [hadded]; exact hall, fun hcontains => ?_⟩
  · rw [hadded]
    exact hfiltered.bots _ (List.getElem_mem _)
  · rw [hall, ← hadded, hknown]
    simp only [Request.matches, List.filter_append, List.filter_filter, List.append_cancel_right_eq]
    refine List.filter_congr fun bot _ => ?_
    cases haccepted : bot.isAcceptedWithText strings later.block.request.text with
    | false => simp
    | true => simp [accepted_of_contains hlawful hcontains haccepted]

/-- A bot is added between the search for "b" and that for "bo". -/
theorem searches_narrow_run :
    ∃ (s : State String) (earlier later : Answer String),
      (machine .ascii [.named "abc", .named "bob"]).Reachable s ∧ s.answers = [earlier, later] ∧
      later.block.result = [.named "bob", .named "bot"] ∧
      ∃ known added, known ++ added <+: s.bots ∧
        earlier.block.result = earlier.block.request.matches .ascii known ∧
        later.block.result =
          later.block.request.matches .ascii earlier.block.result ++
            later.block.request.matches .ascii added := by
  obtain ⟨s, hs, hlength, hresults, hcontains⟩ :=
    (machine .ascii [.named "abc", .named "bob"]).exists_reachable
      [.search "b", .start, .proceed, .proceed, .proceed, .runBlock, .append (.named "bot"),
        .search "bo", .start, .proceed, .proceed, .proceed, .runBlock]
      (fun s => s.answers.length = 2 ∧
        (s.answers.map fun answer => answer.block.result) =
          [[.named "abc", .named "bob"], [.named "bob", .named "bot"]] ∧
        (s.answers.map fun answer => answer.block.request.text) = ["b", "bo"]) (by decide)
  obtain ⟨earlier, later, hanswers⟩ := List.length_eq_two.mp hlength
  rw [hanswers] at hresults hcontains
  simp only [List.map_cons, List.map_nil, List.cons.injEq, and_true] at hresults hcontains
  obtain ⟨known, added, hbots, hknown, -, hnarrow⟩ := searches_narrow .of_ascii hs
    (i := 0) (j := 1) (by decide) (by rw [hanswers]; rfl) (by rw [hanswers]; rfl)
  refine ⟨s, earlier, later, hs, hanswers, hresults.2, known, added, hbots, hknown, hnarrow ?_⟩
  rw [hcontains.1, hcontains.2]
  decide

end Search

end AiGramLib
