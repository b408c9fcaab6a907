import Mathlib.Computability.StateTransition
import Mathlib.Data.Finset.Card
import Mathlib.Data.List.Chain
import Mathlib.Data.List.Nodup

/-!
# Trails of a partial function

A partial function leads from an element to the next one. Its trail from an element lists what is
passed on the way to an element that has no next one. A trail is unique and passes nothing twice
(`Trail.unique`, `Trail.nodup`). There is one from every element from which no cycle can be
reached in a finite set (`exists_trail`), and no cycle can be reached from an element that is the
next of none, if no two elements within reach have the same next (`not_cyclic_of_first`).
-/

namespace Trails

open Relation StateTransition

variable {α : Type*} {next : α → Option α}

/-- From `start` the partial function leads through the elements of the list, and not further. -/
inductive Trail (next : α → Option α) : α → List α → Prop where
  | last {start : α} (h : next start = none) : Trail next start [start]
  | step {start following : α} {rest : List α} (h : next start = some following)
      (hrest : Trail next following rest) : Trail next start (start :: rest)

namespace Trail

variable {start : α} {list other : List α}

theorem head (h : Trail next start list) : list.head? = some start := by
  cases h <;> rfl

theorem unique (h : Trail next start list) (hother : Trail next start other) : list = other := by
  induction h generalizing other with
  | last hnone =>
      cases hother with
      | last => rfl
      | step hsome => rw [hnone] at hsome; cases hsome
  | step hnext _ ih =>
      cases hother with
      | last hnone => rw [hnext] at hnone; cases hnone
      | step hsome hrest =>
          cases hnext.symm.trans hsome
          rw [ih hrest]

/-- What is left of a trail from one of its elements on is the trail from there. -/
theorem suffix (h : Trail next start list) {passed : α} (hpassed : passed ∈ list) :
    ∃ rest, Trail next passed rest ∧ rest <:+ list := by
  induction h with
  | last hnone =>
      rw [List.mem_singleton.mp hpassed]
      exact ⟨_, .last hnone, List.suffix_refl _⟩
  | step hnext hrest ih =>
      rcases List.mem_cons.mp hpassed with rfl | hlater
      · exact ⟨_, .step hnext hrest, List.suffix_refl _⟩
      · obtain ⟨rest, htrail, hsuffix⟩ := ih hlater
        exact ⟨rest, htrail, hsuffix.trans (List.suffix_cons _ _)⟩

/-- Nothing is passed twice. -/
theorem nodup (h : Trail next start list) : list.Nodup := by
  induction h with
  | last => exact List.nodup_singleton _
  | step hnext hrest ih =>
      refine List.nodup_cons.mpr ⟨fun hagain => ?_, ih⟩
      -- the trail from the second occurrence on would be shorter than itself
      obtain ⟨rest, htrail, hsuffix⟩ := hrest.suffix hagain
      have hlength := hsuffix.length_le
      rw [← (Trail.step hnext hrest).unique htrail, List.length_cons] at hlength
      exact absurd hlength (Nat.not_succ_le_self _)

theorem isChain (h : Trail next start list) :
    list.IsChain fun first second => next first = some second := by
  induction h with
  | last => exact List.isChain_singleton _
  | step hnext hrest ih =>
      exact List.isChain_cons.mpr ⟨fun second hsecond => by
        rw [hrest.head] at hsecond
        cases hsecond
        exact hnext, ih⟩

theorem last_next (h : Trail next start list) {last : α} (hlast : list.getLast? = some last) :
    next last = none := by
  induction h with
  | last hnone => cases hlast; exact hnone
  | step hnext hrest ih =>
      refine ih ?_
      cases hrest <;> simpa only [List.getLast?_cons_cons] using hlast

/-- What is passed is what can be reached. -/
theorem mem_iff (h : Trail next start list) {passed : α} :
    passed ∈ list ↔ Reaches next start passed := by
  induction h with
  | last hnone =>
      rw [List.mem_singleton]
      refine ⟨fun hsame => hsame ▸ .refl, fun hreaches => ?_⟩
      rcases ReflTransGen.cases_head hreaches with hsame | ⟨following, hnext, _⟩
      · exact hsame.symm
      · cases hnone.symm.trans hnext
  | step hnext _ ih =>
      rw [List.mem_cons, ih]
      refine ⟨?_, fun hreaches => ?_⟩
      · rintro (rfl | hreaches)
        · exact .refl
        · exact .head hnext hreaches
      · rcases ReflTransGen.cases_head hreaches with hsame | ⟨following, hsome, hrest⟩
        · exact .inl hsame.symm
        · cases hnext.symm.trans hsome
          exact .inr hrest

/-- No element of a trail lies on a cycle. -/
theorem not_cyclic (h : Trail next start list) {passed : α} (hpassed : passed ∈ list) :
    ¬ Reaches₁ next passed passed := by
  intro hcycle
  obtain ⟨rest, htrail, _⟩ := h.suffix hpassed
  obtain ⟨following, hnext, hback⟩ := TransGen.head'_iff.mp hcycle
  cases htrail with
  | last hnone => cases hnone.symm.trans hnext
  | step hsome hrest =>
      cases hnext.symm.trans hsome
      have hnodup := (Trail.step hsome hrest).nodup
      exact (List.nodup_cons.mp hnodup).1 (hrest.mem_iff.mpr hback)

/-- No two elements of a trail have the same next. -/
theorem next_injective (h : Trail next start list) {first second following : α}
    (hfirst : first ∈ list) (hsecond : second ∈ list) (hnext : next first = some following)
    (hother : next second = some following) : first = second := by
  obtain ⟨fromFirst, htrail, hsuffix⟩ := h.suffix hfirst
  obtain ⟨fromSecond, htrail', hsuffix'⟩ := h.suffix hsecond
  cases htrail with
  | last hnone => cases hnone.symm.trans hnext
  | step hsome hrest =>
      cases htrail' with
      | last hnone => cases hnone.symm.trans hother
      | step hsome' hrest' =>
          cases hnext.symm.trans hsome
          cases hother.symm.trans hsome'
          cases hrest.unique hrest'
          -- two ends of the list that are equally long
          have hsame := List.suffix_of_suffix_length_le hsuffix hsuffix' le_rfl
          exact (List.cons.inj (hsame.eq_of_length rfl)).1

/-- Whatever follows the links from the start of a trail is the beginning of it. -/
theorem prefix_of_isChain (h : Trail next start list) {rest : List α}
    (hchain : (start :: rest).IsChain fun first second => next first = some second) :
    start :: rest <+: list := by
  induction h generalizing rest with
  | last hnone =>
      cases rest with
      | nil => exact List.prefix_refl _
      | cons second rest =>
          cases hnone.symm.trans (List.isChain_cons_cons.mp hchain).1
  | step hnext hrest ih =>
      cases rest with
      | nil => exact (List.prefix_cons_inj _).mpr List.nil_prefix
      | cons second rest =>
          obtain ⟨hsome, hchain⟩ := List.isChain_cons_cons.mp hchain
          cases hnext.symm.trans hsome
          exact (List.prefix_cons_inj _).mpr (ih hchain)

end Trail

/-- From an element from which a finite set, but no cycle in it can be reached there is a trail. -/
theorem exists_trail {reached : Finset α} {start : α}
    (hreached : ∀ passed, Reaches next start passed → passed ∈ reached)
    (hacyclic : ∀ passed, Reaches next start passed → ¬ Reaches₁ next passed passed) :
    ∃ list, Trail next start list := by
  classical
  -- the elements that are yet to be passed become fewer with each step
  induction hcard : reached.card generalizing start reached with
  | zero =>
      rw [Finset.card_eq_zero.mp hcard] at hreached
      exact absurd (hreached start .refl) (Finset.notMem_empty _)
  | succ card ih =>
      cases hnext : next start with
      | none => exact ⟨_, .last hnext⟩
      | some following =>
          have hstep : ∀ passed, Reaches next following passed → Reaches next start passed :=
            fun passed hpassed => .head hnext hpassed
          have hback : ¬ Reaches next following start := fun hback =>
            hacyclic start .refl (TransGen.head'_iff.mpr ⟨following, hnext, hback⟩)
          obtain ⟨rest, hrest⟩ := @ih (reached.erase start) following
            (fun passed hpassed => Finset.mem_erase.mpr
              ⟨fun hsame => hback (hsame ▸ hpassed), hreached passed (hstep passed hpassed)⟩)
            (fun passed hpassed => hacyclic passed (hstep passed hpassed))
            (by rw [Finset.card_erase_of_mem (hreached start .refl), hcard, Nat.add_sub_cancel])
          exact ⟨_, .step hnext hrest⟩

/-- If no two elements within reach have the same next, and the start is the next of none of
them, no cycle is within reach. -/
theorem not_cyclic_of_first {start : α}
    (hshared : ∀ first second following, Reaches next start first → Reaches next start second →
      next first = some following → next second = some following → first = second)
    (hfirst : ∀ passed, Reaches next start passed → next passed ≠ some start) {passed : α}
    (hpassed : Reaches next start passed) : ¬ Reaches₁ next passed passed := by
  induction hpassed with
  | refl =>
      intro hcycle
      obtain ⟨before, hbefore, hnext⟩ := TransGen.tail'_iff.mp hcycle
      exact hfirst before hbefore hnext
  | @tail first second hreaches hnext ih =>
      intro hcycle
      -- what leads to `second` on the cycle is `first`, which is then on it too
      obtain ⟨before, hbefore, hnext'⟩ := TransGen.tail'_iff.mp hcycle
      have hsame : first = before :=
        hshared first before second hreaches ((hreaches.tail hnext).trans hbefore) hnext hnext'
      exact ih (TransGen.head'_iff.mpr ⟨second, hnext, hsame ▸ hbefore⟩)

/-- Where there are no cycles, every element of a finite set is reached from one that is the next
of none. -/
theorem exists_source {sources : Finset α}
    (hsources : ∀ first second, next first = some second → first ∈ sources)
    (hacyclic : ∀ passed, ¬ Reaches₁ next passed passed) (last : α) :
    ∃ source, Reaches next source last ∧ ∀ before, next before ≠ some source := by
  classical
  have hbefore : ∀ passed, Reaches₁ next passed last → passed ∈ sources := fun passed hreaches =>
    let ⟨second, hnext, _⟩ := TransGen.head'_iff.mp hreaches
    hsources passed second hnext
  clear hsources
  -- the elements that lead to the source become fewer with each step back
  induction hcard : sources.card generalizing last sources with
  | zero =>
      rw [Finset.card_eq_zero.mp hcard] at hbefore
      exact ⟨last, .refl, fun before hnext => absurd (hbefore before (.single hnext))
        (Finset.notMem_empty _)⟩
  | succ card ih =>
      by_cases hsource : ∃ before, next before = some last
      · obtain ⟨before, hnext⟩ := hsource
        obtain ⟨source, hreaches, hnone⟩ := @ih (sources.erase before) before
          (fun passed hpassed => Finset.mem_erase.mpr
            ⟨fun hsame => hacyclic before (hsame ▸ hpassed), hbefore passed (hpassed.tail hnext)⟩)
          (by rw [Finset.card_erase_of_mem (hbefore before (.single hnext)), hcard,
            Nat.add_sub_cancel])
        exact ⟨source, hreaches.tail hnext, hnone⟩
      · exact ⟨last, .refl, fun before hnext => hsource ⟨before, hnext⟩⟩

end Trails
