import Mathlib.Algebra.Group.Nat.Defs
import Mathlib.Logic.Function.Basic
import Mathlib.Tactic.SplitIfs

/-!
# Memory

A memory is a function from addresses to cells. `copy` is `memcpy` and `fill` is
`memset`; a range of a memory is given by its first address and its number of
cells. The lemmas say what copies compose to: two ranges side by side are one
range, a copy out of a copy is a copy, and writing back a block that was read and
changed in one place changes that place only.

In a memory of bytes a word is four bytes, the lowest first.
-/

namespace Pintos

/-- Bytes in memory or on a disk. -/
abbrev Bytes := ℕ → UInt8

namespace Memory

variable {β : Type*}

/-- The memory `m` with the `n` cells of `src` from address `b` copied to address `a`. -/
def copy (m : ℕ → β) (a : ℕ) (src : ℕ → β) (b n : ℕ) : ℕ → β :=
  fun i => if a ≤ i ∧ i < a + n then src (b + (i - a)) else m i

/-- The memory `m` with the `n` cells from address `a` set to `v`. -/
def fill (m : ℕ → β) (a : ℕ) (v : β) (n : ℕ) : ℕ → β :=
  fun i => if a ≤ i ∧ i < a + n then v else m i

variable {m : ℕ → β}

theorem copy_of_mem {src : ℕ → β} {a b n i : ℕ} (h : a ≤ i) (h' : i < a + n) :
    copy m a src b n i = src (b + (i - a)) := if_pos ⟨h, h'⟩

theorem copy_of_notMem {src : ℕ → β} {a b n i : ℕ} (h : i < a ∨ a + n ≤ i) : copy m a src b n i = m i :=
  if_neg (by omega)

theorem fill_of_mem {a n i : ℕ} {v : β} (h : a ≤ i) (h' : i < a + n) : fill m a v n i = v :=
  if_pos ⟨h, h'⟩

theorem fill_of_notMem {a n i : ℕ} {v : β} (h : i < a ∨ a + n ≤ i) : fill m a v n i = m i :=
  if_neg (by omega)

@[simp] theorem fill_zero (m : ℕ → β) (a : ℕ) (v : β) : fill m a v 0 = m := by
  funext i
  exact fill_of_notMem (by omega)

theorem fill_one (m : ℕ → β) (a : ℕ) (v : β) : fill m a v 1 = Function.update m a v := by
  funext i
  obtain rfl | hi := Decidable.em (i = a)
  · rw [fill_of_mem (by omega) (by omega), Function.update_self]
  · rw [fill_of_notMem (by omega), Function.update_of_ne hi]

theorem fill_fill_add (m : ℕ → β) (a : ℕ) (v : β) (n k : ℕ) :
    fill (fill m a v n) (a + n) v k = fill m a v (n + k) := by
  funext i
  unfold fill
  split_ifs <;> first | rfl | omega

@[simp] theorem copy_zero (m src : ℕ → β) (a b : ℕ) : copy m a src b 0 = m := by
  funext i
  exact copy_of_notMem (by omega)

theorem copy_self (m : ℕ → β) (a n : ℕ) : copy m a (fun j => m (a + j)) 0 n = m := by
  funext i
  unfold copy
  split_ifs
  · show m (a + (0 + (i - a))) = m i
    congr 1
    omega
  · rfl

/-- A copy with a place changed is a copy and then a copy of that place. -/
theorem copy_copy_place (m t src : ℕ → β) {a k o n : ℕ} (h : o + n ≤ k) :
    copy m a (copy t o src 0 n) 0 k = copy (copy m a t 0 k) (a + o) src 0 n := by
  funext i
  unfold copy
  split_ifs
  all_goals first | rfl | omega | (congr 1; omega)

theorem copy_copy_add (m src : ℕ → β) (a b n k : ℕ) :
    copy (copy m a src b n) (a + n) src (b + n) k = copy m a src b (n + k) := by
  funext i
  unfold copy
  split_ifs
  · congr 1; omega
  all_goals first | rfl | omega

theorem copy_copy_src (m t src : ℕ → β) {a b c k o n : ℕ} (h : o + n ≤ k) :
    copy m a (copy t c src b k) (c + o) n = copy m a src (b + o) n := by
  funext i
  unfold copy
  split_ifs
  · congr 1; omega
  all_goals first | rfl | omega

/-- A block that is read, changed in one place and written back changes that place. -/
theorem copy_block (m t src : ℕ → β) {a b c k o n : ℕ} (h : o + n ≤ k) :
    copy m a (copy (copy t c m a k) (c + o) src b n) c k = copy m (a + o) src b n := by
  funext i
  unfold copy
  split_ifs
  all_goals first | rfl | omega | (congr 1; omega)

/-! ### Words -/

section Words

def wordBytes (v : ℕ) : Bytes := fun k => UInt8.ofNat (v / 256 ^ k)

/-- The word at address `a`. -/
def word (m : Bytes) (a : ℕ) : ℕ :=
  (m a).toNat + 256 * (m (a + 1)).toNat + 65536 * (m (a + 2)).toNat + 16777216 * (m (a + 3)).toNat

/-- The memory `m` with the word `v` at address `a`. -/
def putWord (m : Bytes) (a v : ℕ) : Bytes := copy m a (wordBytes v) 0 4

variable {m m' : Bytes} {a b v i : ℕ}

theorem putWord_of_notMem (h : i < a ∨ a + 4 ≤ i) : putWord m a v i = m i := copy_of_notMem h

/-- Words with the same bytes are the same. -/
theorem word_eq (h : ∀ k < 4, m (a + k) = m' (b + k)) : word m a = word m' b := by
  have h₀ := h 0 (by omega)
  rw [Nat.add_zero, Nat.add_zero] at h₀
  unfold word
  rw [h₀, h 1 (by omega), h 2 (by omega), h 3 (by omega)]

theorem word_congr (h : ∀ k < 4, m (a + k) = m' (a + k)) : word m a = word m' a := word_eq h

theorem word_lt (m : Bytes) (a : ℕ) : word m a < 2 ^ 32 := by
  have h₀ := (m a).toNat_lt
  have h₁ := (m (a + 1)).toNat_lt
  have h₂ := (m (a + 2)).toNat_lt
  have h₃ := (m (a + 3)).toNat_lt
  unfold word
  omega

theorem word_of_wordBytes (hv : v < 2 ^ 32) (h : ∀ k < 4, m (a + k) = wordBytes v k) : word m a = v := by
  have h₀ := h 0 (by omega)
  rw [Nat.add_zero] at h₀
  unfold word
  rw [h₀, h 1 (by omega), h 2 (by omega), h 3 (by omega)]
  simp only [wordBytes, UInt8.toNat_ofNat']
  omega

theorem wordBytes_word (m : Bytes) (a : ℕ) {k : ℕ} (hk : k < 4) : wordBytes (word m a) k = m (a + k) := by
  have h₀ := (m a).toNat_lt
  have h₁ := (m (a + 1)).toNat_lt
  have h₂ := (m (a + 2)).toNat_lt
  have h₃ := (m (a + 3)).toNat_lt
  have hk : k = 0 ∨ k = 1 ∨ k = 2 ∨ k = 3 := by omega
  rw [← UInt8.toNat_inj]
  simp only [wordBytes, UInt8.toNat_ofNat', word]
  rcases hk with rfl | rfl | rfl | rfl
  · rw [show m (a + 0) = m a from rfl]
    omega
  all_goals omega

theorem word_putWord (hv : v < 2 ^ 32) : word (putWord m a v) a = v := by
  refine word_of_wordBytes hv fun k hk => ?_
  unfold putWord
  rw [copy_of_mem (by omega) (by omega), Nat.zero_add, Nat.add_sub_cancel_left]

theorem word_putWord_of_disjoint (h : b + 4 ≤ a ∨ a + 4 ≤ b) : word (putWord m a v) b = word m b :=
  word_congr fun k hk => putWord_of_notMem (by omega)

theorem word_of_zero (h : ∀ k < 4, m (a + k) = 0) : word m a = 0 := by
  have h₀ := h 0 (by omega)
  rw [Nat.add_zero] at h₀
  unfold word
  rw [h₀, h 1 (by omega), h 2 (by omega), h 3 (by omega)]
  rfl

end Words

end Memory

end Pintos
