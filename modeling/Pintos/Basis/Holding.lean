import Mathlib.Data.Set.Lattice
import Mathlib.Order.CompletePartialOrder

/-!
# Holdings

Blocks are handed out to holders: `used` are the blocks that are handed out, and
`held k` are those that `k` has. The holdings are sound when no block has two
holders and every block that is held is used (`Sound`); a used block may have no
holder, and is lost then.

Free blocks can be taken (`Sound.take`), blocks can go from one holder to another
(`Sound.give`), and a holder can free what it has (`Sound.free`).
-/

namespace Pintos

variable {κ β : Type*}

/-- No block is held twice, and the blocks that are held are used. -/
structure Sound (used : Set β) (held : κ → Set β) : Prop where
  /-- Two holders have no block in common. -/
  disjoint : ∀ k l, k ≠ l → Disjoint (held k) (held l)
  used : ∀ k, held k ⊆ used

namespace Sound

open Function

variable [DecidableEq κ] {used r : Set β} {held : κ → Set β}

section

variable (h : Sound used held)
include h

/-- One holder's blocks change to blocks that no other holder has. -/
protected theorem update {used' : Set β} (k : κ) (hr : r ⊆ used')
    (hother : ∀ l, l ≠ k → Disjoint r (held l) ∧ held l ⊆ used') : Sound used' (update held k r) := by
  refine ⟨fun i j hij => ?_, fun i => ?_⟩
  · obtain rfl | hi := eq_or_ne i k
    · rw [update_self, update_of_ne hij.symm]
      exact (hother j hij.symm).1
    · obtain rfl | hj := eq_or_ne j k
      · rw [update_self, update_of_ne hi]
        exact (hother i hi).1.symm
      · rw [update_of_ne hi, update_of_ne hj]
        exact h.disjoint i j hij
  · by_cases hi : i = k
    · rw [hi, update_self]
      exact hr
    · rw [update_of_ne hi]
      exact (hother i hi).2

theorem take (k : κ) (hfree : Disjoint r used) :
    Sound (used ∪ r) (update held k (held k ∪ r)) := by
  refine h.update k (Set.union_subset_union_left r (h.used k)) fun l hl => ⟨?_, ?_⟩
  · exact Set.disjoint_union_left.mpr ⟨h.disjoint k l hl.symm, hfree.mono_right (h.used l)⟩
  · exact (h.used l).trans Set.subset_union_left

theorem free (k : κ) (hr : r ⊆ held k) :
    Sound (used \ r) (update held k (held k \ r)) := by
  refine h.update k (Set.sdiff_subset_sdiff_left (h.used k)) fun l hl => ⟨?_, ?_⟩
  · exact (h.disjoint k l hl.symm).mono_left Set.sdiff_subset
  · intro b hb
    refine ⟨h.used l hb, fun hbr => ?_⟩
    exact Set.disjoint_left.mp (h.disjoint l k hl) hb (hr hbr)

/-- A holder gives blocks it has to another. -/
theorem give {k l : κ} (hkl : k ≠ l) (hr : r ⊆ held k) :
    Sound used (update (update held k (held k \ r)) l (held l ∪ r)) := by
  have hfewer : Sound used (update held k (held k \ r)) := by
    refine h.update k (Set.sdiff_subset.trans (h.used k)) fun j hj => ⟨?_, h.used j⟩
    exact (h.disjoint k j hj.symm).mono_left Set.sdiff_subset
  refine hfewer.update l (Set.union_subset (h.used l) (hr.trans (h.used k))) fun j hj => ⟨?_, hfewer.used j⟩
  obtain rfl | hjk := eq_or_ne j k
  · rw [update_self]
    refine Set.disjoint_union_left.mpr ⟨?_, Set.disjoint_sdiff_right⟩
    exact (h.disjoint l j hkl.symm).mono_right Set.sdiff_subset
  · rw [update_of_ne hjk]
    refine Set.disjoint_union_left.mpr ⟨h.disjoint l j hj.symm, ?_⟩
    exact (h.disjoint k j hjk.symm).mono_left hr

end

end Sound

end Pintos
