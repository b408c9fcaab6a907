import Mathlib.Data.List.Pairwise
import Mathlib.Data.List.Sublists

/-!
# Numbers in line

Items are numbered as they come in and pass through queues that never let one overtake another,
though some may drop out. The numbers of all items in sight, those that came out first in front,
then stay in increasing order: `InLine` is that invariant, with one lemma for an item that comes
in and one for items that drop out. Whoever came in last is last in line (`InLine.last`).
-/

namespace Lineup

/-- The numbers in line are increasing and have been issued. -/
structure InLine (line : List Nat) (issued : Nat) : Prop where
  ordered : line.Pairwise (· < ·)
  below : ∀ number ∈ line, number < issued

variable {line rest : List Nat} {issued : Nat}

theorem InLine.nil (issued : Nat) : InLine [] issued :=
  ⟨.nil, by simp⟩

/-- Items that leave the line do not disturb the others. -/
theorem InLine.sublist (h : InLine line issued) (hrest : rest.Sublist line) :
    InLine rest issued :=
  ⟨h.ordered.sublist hrest, fun number hnumber => h.below number (hrest.subset hnumber)⟩

/-- The next item lines up behind all others. -/
theorem InLine.issue (h : InLine line issued) : InLine (line ++ [issued]) (issued + 1) where
  ordered := by
    refine List.pairwise_append.mpr ⟨h.ordered, List.pairwise_singleton _ _, ?_⟩
    intro number hnumber next hnext
    rw [List.mem_singleton.mp hnext]
    exact h.below number hnumber
  below := by
    intro number hnumber
    rcases List.mem_append.mp hnumber with hold | hnew
    · exact Nat.lt_succ_of_lt (h.below number hold)
    · rw [List.mem_singleton.mp hnew]
      exact Nat.lt_succ_self issued

/-- No number is in line twice. -/
theorem InLine.nodup (h : InLine line issued) : line.Nodup :=
  h.ordered.imp fun hlt => Nat.ne_of_lt hlt

/-- The number issued last, while it is in line, is the last one. -/
theorem InLine.last (h : InLine line (issued + 1)) (hmem : issued ∈ line) :
    line.getLast? = some issued := by
  obtain ⟨front, back, rfl⟩ := List.append_of_mem hmem
  cases back with
  | nil => simp
  | cons next back =>
      have hafter := (List.pairwise_append.mp h.ordered).2.1
      have hlt := List.rel_of_pairwise_cons hafter List.mem_cons_self
      have hbelow := h.below next (by simp)
      omega

end Lineup
