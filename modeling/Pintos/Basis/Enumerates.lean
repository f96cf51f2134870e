import Mathlib.Data.List.Nodup

/-!
# Lists without repetition, as sets

A list enumerates a predicate when it has every element that satisfies it, once,
and no other. A free list that is changed by putting elements at one of its ends,
by taking its first and by removing elements from its middle enumerates what is
free; the lemmas say how the predicate changes.
-/

namespace Pintos

variable {α : Type*}

/-- The list has every element of `S` exactly once, and nothing else. -/
structure Enumerates (l : List α) (S : α → Prop) : Prop where
  /-- Once. -/
  nodup : l.Nodup
  /-- Every element and no other. -/
  mem_iff : ∀ a, a ∈ l ↔ S a

namespace Enumerates

variable {l : List α} {S R : α → Prop} {a : α}

theorem congr (h : Enumerates l S) (hS : ∀ a, S a ↔ R a) : Enumerates l R :=
  ⟨h.nodup, fun a => (h.mem_iff a).trans (hS a)⟩

theorem cons (h : Enumerates l S) (ha : ¬S a) : Enumerates (a :: l) fun x => x = a ∨ S x where
  nodup := List.nodup_cons.mpr ⟨fun hmem => ha ((h.mem_iff a).mp hmem), h.nodup⟩
  mem_iff x := by rw [List.mem_cons, h.mem_iff]

theorem tail (h : Enumerates (a :: l) S) : Enumerates l fun x => S x ∧ x ≠ a where
  nodup := h.nodup.of_cons
  mem_iff x := by
    rw [← h.mem_iff, List.mem_cons]
    constructor
    · intro hx
      exact ⟨.inr hx, fun heq => (List.nodup_cons.mp h.nodup).1 (heq ▸ hx)⟩
    · intro ⟨hx, hne⟩
      exact hx.resolve_left hne

theorem concat (h : Enumerates l S) (ha : ¬S a) : Enumerates (l ++ [a]) fun x => S x ∨ x = a where
  nodup := List.concat_eq_append ▸ List.Nodup.concat (fun hmem => ha ((h.mem_iff a).mp hmem)) h.nodup
  mem_iff x := by rw [List.mem_append, h.mem_iff, List.mem_singleton]

theorem erase [DecidableEq α] (h : Enumerates l S) (a : α) : Enumerates (l.erase a) fun x => S x ∧ x ≠ a where
  nodup := h.nodup.erase a
  mem_iff x := by rw [h.nodup.mem_erase_iff, h.mem_iff, and_comm]

end Enumerates

end Pintos
