import Mathlib.Data.List.Perm.Basic
import Pintos.Basis.Memory

/-!
# Spans

A row of cells, each with a bit, is handed out in spans: a span `(i, n)` has the cells from `i` on,
`n` of them. The spans that are out tile the cells whose bit is set when they lie in the row, have
no cell in common, and cover exactly these cells (`Tiles`). Free cells can be taken as one more span
(`Tiles.take`), and a span can be given back (`Tiles.give`); the bits of its cells are all set until
then (`Tiles.set`).
-/

namespace Pintos.Spans

open Memory

/-- The cells of a span. -/
def Has (s : ℕ × ℕ) (k : ℕ) : Prop := s.1 ≤ k ∧ k < s.1 + s.2

/-- Two spans without a common cell. -/
def Apart (s t : ℕ × ℕ) : Prop := ∀ k, Has s k → ¬ Has t k

theorem Apart.symm {s t : ℕ × ℕ} (h : Apart s t) : Apart t s := fun k ht hs => h k hs ht

/-- **The spans tile the cells whose bit is set.** -/
structure Tiles (size : ℕ) (bit : ℕ → Bool) (spans : List (ℕ × ℕ)) : Prop where
  /-- They are not empty, and lie in the row. -/
  inside : ∀ s ∈ spans, 0 < s.2 ∧ s.1 + s.2 ≤ size
  /-- No cell is in two of them. -/
  apart : spans.Pairwise Apart
  /-- A cell of the row is in one of them if its bit is set. -/
  bit : ∀ k < size, bit k = true ↔ ∃ s ∈ spans, Has s k

namespace Tiles

variable {size i n : ℕ} {bit : ℕ → Bool} {s : ℕ × ℕ} {spans rest : List (ℕ × ℕ)}

theorem nil (h : ∀ k < size, bit k = false) : Tiles size bit [] where
  inside := by simp
  apart := .nil
  bit k hk := by simp [h k hk]

theorem set (h : Tiles size bit spans) (hs : s ∈ spans) {k : ℕ} (hk : Has s k) : bit k = true := by
  have hin := (h.inside s hs).2
  exact (h.bit k (by have := hk.2; omega)).mpr ⟨s, hs, hk⟩

theorem take (h : Tiles size bit spans) (hn : 0 < n) (hle : i + n ≤ size) (hfree : ∀ k, i ≤ k → k < i + n → bit k = false) :
    Tiles size (fill bit i true n) ((i, n) :: spans) where
  inside := List.forall_mem_cons.mpr ⟨⟨hn, hle⟩, h.inside⟩
  apart := by
    refine List.pairwise_cons.mpr ⟨fun s hs k hk hsk => ?_, h.apart⟩
    cases (hfree k hk.1 hk.2).symm.trans (h.set hs hsk)
  bit k hk := by
    by_cases hmem : i ≤ k ∧ k < i + n
    · rw [fill_of_mem hmem.1 hmem.2]
      exact ⟨fun _ => ⟨(i, n), List.mem_cons_self, hmem⟩, fun _ => rfl⟩
    · rw [fill_of_notMem (by omega), h.bit k hk, List.exists_mem_cons_iff]
      exact ⟨fun hex => .inr hex, fun hor => hor.resolve_left hmem⟩

theorem give (h : Tiles size bit spans) (hperm : spans.Perm (s :: rest)) : Tiles size (fill bit s.1 false s.2) rest := by
  have hsub : ∀ t ∈ rest, t ∈ spans := fun t ht => hperm.mem_iff.mpr (List.mem_cons_of_mem s ht)
  obtain ⟨hapart, hrest⟩ := List.pairwise_cons.mp ((hperm.pairwise_iff fun hst => Apart.symm hst).mp h.apart)
  refine ⟨fun t ht => h.inside t (hsub t ht), hrest, fun k hk => ?_⟩
  by_cases hmem : s.1 ≤ k ∧ k < s.1 + s.2
  · rw [fill_of_mem hmem.1 hmem.2]
    refine ⟨fun hf => (by cases hf), ?_⟩
    rintro ⟨t, ht, htk⟩
    exact absurd htk (hapart t ht k hmem)
  · rw [fill_of_notMem (by omega), h.bit k hk]
    constructor
    · rintro ⟨t, ht, htk⟩
      rcases List.mem_cons.mp (hperm.mem_iff.mp ht) with rfl | hrest
      · exact absurd htk hmem
      · exact ⟨t, hrest, htk⟩
    · rintro ⟨t, ht, htk⟩
      exact ⟨t, hsub t ht, htk⟩

end Tiles

end Pintos.Spans
