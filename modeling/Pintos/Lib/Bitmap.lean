import Mathlib.Order.Bounds.Defs
import Pintos.Basis.Memory

/-!
# Bitmaps

`lib/kernel/bitmap.c`: an array of bits, kept in words of 32 bits.

## The model

A failed `ASSERT` is `none`, and so is an access outside the words. A loop is a
recursion over the rounds that are left. Sizes are those of `size_t`, below
`2 ^ 32`. When `bit_cnt` is so large that the computation of the number of words
wraps, this number is 0, and `bitmap_create` fails because `malloc` returns no block
of 0 bytes: so a bitmap has `fits`.

`bitmap_read` and `bitmap_write` are in `Pintos.Filesys.FreeMap`, where files are; here
is what they need, the words as bytes.

## What is proved

`Bitmap.bit` is the bitmap as it is seen from outside. `bitmap_set_multiple` fills a
range of it (`bitmapSetMultiple_eq`), `bitmap_all` looks at a range (`bitmapAll_eq`),
and `bitmap_scan` and `bitmap_scan_and_flip` find the first group there is, and change
nothing else (**`bitmap_scan_exact`**). The words are what they are read back as
(`wordsOf_eq`).
-/

namespace Pintos.Lib

open Function Memory

/-- A bitmap in words of 32 bits. -/
structure Bitmap where
  /-- The number of bits. -/
  bitCnt : ℕ
  /-- The words. -/
  bits : ℕ → BitVec 32
  /-- The number of words can be computed. -/
  fits : bitCnt + 31 < 2 ^ 32

/-! ### Words -/

/-- The word of a bit. -/
def elemIdx (bitIdx : ℕ) : ℕ := bitIdx / 32

/-- The bit in its word. -/
def bitMask (bitIdx : ℕ) : BitVec 32 := 1#32 <<< (bitIdx % 32)

/-- The number of words, `DIV_ROUND_UP (bit_cnt, ELEM_BITS)`. -/
def elemCnt (bitCnt : ℕ) : ℕ := (bitCnt + 31) % 2 ^ 32 / 32

/-- The number of bytes. -/
def byteCnt (bitCnt : ℕ) : ℕ := 4 * elemCnt bitCnt

/-- The bits of the last word that are in use. -/
def lastMask (b : Bitmap) : BitVec 32 :=
  let lastBits := b.bitCnt % 32
  if lastBits ≠ 0 then (1#32 <<< lastBits) - 1 else -1

/-- The words as bytes. -/
def Bitmap.bytes (b : Bitmap) : Bytes := fun i => wordBytes (b.bits (i / 4)).toNat (i % 4)

/-- Bytes as words. -/
def wordsOf (m : Bytes) : ℕ → BitVec 32 := fun k => BitVec.ofNat 32 (word m (4 * k))

/-! ### Single bits -/

/-- One instruction on the word of a bit. -/
def updateElem (op : BitVec 32 → BitVec 32 → BitVec 32) (b : Bitmap) (bitIdx : ℕ) : Option Bitmap :=
  let idx := elemIdx bitIdx
  if idx < elemCnt b.bitCnt then
    some { b with bits := update b.bits idx (op (b.bits idx) (bitMask bitIdx)) }
  else none

/-- `bitmap_mark`: no assertion guards it. -/
def bitmapMark : Bitmap → ℕ → Option Bitmap := updateElem fun e mask => e ||| mask

/-- `bitmap_reset`: no assertion guards it. -/
def bitmapReset : Bitmap → ℕ → Option Bitmap := updateElem fun e mask => e &&& ~~~ mask

/-- Set bit `idx` to `value`. -/
def bitmapSet (b : Bitmap) (idx : ℕ) (value : Bool) : Option Bitmap :=
  if idx < b.bitCnt then
    if value then bitmapMark b idx else bitmapReset b idx
  else none

/-- Bit `idx`. -/
def bitmapTest (b : Bitmap) (idx : ℕ) : Option Bool :=
  if idx < b.bitCnt then some ((b.bits (elemIdx idx) &&& bitMask idx) != 0) else none

/-! ### Ranges -/

/-- The assertions on a range. -/
def Bitmap.InRange (b : Bitmap) (start cnt : ℕ) : Prop := start ≤ b.bitCnt ∧ (start + cnt) % 2 ^ 32 ≤ b.bitCnt

instance (b : Bitmap) (start cnt : ℕ) : Decidable (b.InRange start cnt) := inferInstanceAs (Decidable (_ ∧ _))

/-- The loop of `bitmap_set_multiple`. -/
def setLoop (value : Bool) : (n idx : ℕ) → Bitmap → Option Bitmap
  | 0, _, b => some b
  | n + 1, idx, b => (bitmapSet b idx value).bind (setLoop value n (idx + 1))

/-- Set `cnt` bits from `start` on. -/
def bitmapSetMultiple (b : Bitmap) (start cnt : ℕ) (value : Bool) : Option Bitmap :=
  if b.InRange start cnt then setLoop value cnt start b else none

/-- Set all bits. -/
def bitmapSetAll (b : Bitmap) (value : Bool) : Option Bitmap := bitmapSetMultiple b 0 b.bitCnt value

/-- The loop of `bitmap_contains`. -/
def containsLoop (b : Bitmap) (value : Bool) : (n idx : ℕ) → Option Bool
  | 0, _ => some false
  | n + 1, idx =>
    (bitmapTest b idx).bind fun bit => if bit = value then some true else containsLoop b value n (idx + 1)

/-- One of the bits has the value. -/
def bitmapContains (b : Bitmap) (start cnt : ℕ) (value : Bool) : Option Bool :=
  if b.InRange start cnt then containsLoop b value cnt start else none

/-- All of the bits are set. -/
def bitmapAll (b : Bitmap) (start cnt : ℕ) : Option Bool := (bitmapContains b start cnt false).map not

/-- The loop of `bitmap_scan`. -/
def scanLoop (b : Bitmap) (cnt : ℕ) (value : Bool) : (n i : ℕ) → Option (Option ℕ)
  | 0, _ => some none
  | n + 1, i =>
    (bitmapContains b i cnt (!value)).bind fun found =>
      if found then scanLoop b cnt value n (i + 1) else some (some i)

/-- `bitmap_scan`; `BITMAP_ERROR` is `some none`. -/
def bitmapScan (b : Bitmap) (start cnt : ℕ) (value : Bool) : Option (Option ℕ) :=
  if start ≤ b.bitCnt then
    if cnt ≤ b.bitCnt then scanLoop b cnt value (b.bitCnt - cnt + 1 - start) start else some none
  else none

/-- `bitmap_scan_and_flip`: the index, and the bitmap. -/
def bitmapScanAndFlip (b : Bitmap) (start cnt : ℕ) (value : Bool) : Option (Option ℕ × Bitmap) :=
  (bitmapScan b start cnt value).bind fun
    | none => some (none, b)
    | some idx => (bitmapSetMultiple b idx cnt (!value)).map fun b => (some idx, b)

/-- `bitmap_create`, with what `malloc` returns for the structure and for the words; a null pointer
is `some none`. -/
def bitmapCreate (block words : Option Bytes) (bitCnt : ℕ) : Option (Option Bitmap) :=
  match block, words with
  | none, _ => some none
  | some _, words =>
    if fits : (words.isSome ∨ bitCnt = 0) ∧ bitCnt + 31 < 2 ^ 32 then
      (bitmapSetAll ⟨bitCnt, wordsOf (words.getD fun _ => 0), fits.2⟩ false).map some
    else some none

/-- `bitmap_buf_size`: the structure has 8 bytes. -/
def bitmapBufSize (bitCnt : ℕ) : ℕ := (8 + byteCnt bitCnt) % 2 ^ 32

/-- `bitmap_create_in_buf`, with the bytes that follow the structure in the block. -/
def bitmapCreateInBuf (bitCnt : ℕ) (words : Bytes) (blockSize : ℕ) : Option Bitmap :=
  if fits : bitmapBufSize bitCnt ≤ blockSize ∧ bitCnt + 31 < 2 ^ 32 then
    bitmapSetAll ⟨bitCnt, wordsOf words, fits.2⟩ false
  else none

/-! ### The bits -/

/-- The bitmap as an array of bits. -/
def Bitmap.bit (b : Bitmap) (i : ℕ) : Bool := (b.bits (i / 32)).getLsbD (i % 32)

/-- A group of `cnt` bits from `i` on that are all `value`. -/
def Bitmap.Group (b : Bitmap) (cnt : ℕ) (value : Bool) (i : ℕ) : Prop :=
  i + cnt ≤ b.bitCnt ∧ ∀ k, i ≤ k → k < i + cnt → b.bit k = value

variable {b : Bitmap} {i n start cnt : ℕ}

theorem Bitmap.elemCnt_eq (b : Bitmap) : elemCnt b.bitCnt = (b.bitCnt + 31) / 32 := by
  have := b.fits
  unfold elemCnt
  rw [Nat.mod_eq_of_lt this]

theorem getLsbD_bitMask (i : ℕ) {j : ℕ} (hj : j < 32) : (bitMask i).getLsbD j = decide (j = i % 32) := by
  unfold bitMask
  have : i % 32 < 32 := Nat.mod_lt _ (by decide)
  by_cases h : j = i % 32
  · simp [h, this]
  · simp [h, hj]
    omega

theorem bitmapTest_eq (h : i < b.bitCnt) : bitmapTest b i = some (b.bit i) := by
  unfold bitmapTest Bitmap.bit elemIdx
  rw [if_pos h]
  have hi : i % 32 < 32 := Nat.mod_lt _ (by decide)
  cases hbit : (b.bits (i / 32)).getLsbD (i % 32) with
  | true =>
    have hne : (b.bits (i / 32) &&& bitMask i) ≠ 0 := fun h0 => by
      have := congrArg (·.getLsbD (i % 32)) h0
      simp [hbit, getLsbD_bitMask i hi] at this
    simpa using hne
  | false =>
    have heq : (b.bits (i / 32) &&& bitMask i) = 0 := by
      refine BitVec.eq_of_getLsbD_eq fun j hj => ?_
      rw [BitVec.getLsbD_and, getLsbD_bitMask i hj]
      by_cases hji : j = i % 32
      · simp [hji, hbit]
      · simp [hji]
    simpa using heq

/-- An instruction on one word changes one bit, when it does so in the word. -/
theorem updateElem_eq {op : BitVec 32 → BitVec 32 → BitVec 32} {v : Bool} (h : elemIdx i < elemCnt b.bitCnt)
    (hop : ∀ e j, j < 32 → (op e (bitMask i)).getLsbD j = if j = i % 32 then v else e.getLsbD j) :
    ∃ b', updateElem op b i = some b' ∧ b'.bitCnt = b.bitCnt ∧ b'.bit = update b.bit i v := by
  unfold updateElem
  rw [if_pos h]
  refine ⟨_, rfl, rfl, ?_⟩
  funext k
  unfold Bitmap.bit elemIdx
  dsimp only
  have hk : k % 32 < 32 := Nat.mod_lt _ (by decide)
  by_cases hword : k / 32 = i / 32
  · rw [hword, update_self, hop _ _ hk]
    obtain rfl | hki := eq_or_ne k i
    · rw [if_pos rfl, update_self]
    · rw [if_neg (by omega), update_of_ne hki, hword]
  · have hki : k ≠ i := fun he => hword (by rw [he])
    rw [update_of_ne hword, update_of_ne hki]

theorem bitmapMark_eq (h : elemIdx i < elemCnt b.bitCnt) :
    ∃ b', bitmapMark b i = some b' ∧ b'.bitCnt = b.bitCnt ∧ b'.bit = update b.bit i true := by
  refine updateElem_eq h fun e j hj => ?_
  rw [BitVec.getLsbD_or, getLsbD_bitMask i hj]
  by_cases hji : j = i % 32 <;> simp [hji]

theorem bitmapSet_eq (v : Bool) (h : i < b.bitCnt) :
    ∃ b', bitmapSet b i v = some b' ∧ b'.bitCnt = b.bitCnt ∧ b'.bit = update b.bit i v := by
  have hword : elemIdx i < elemCnt b.bitCnt := by
    rw [b.elemCnt_eq, elemIdx]
    omega
  unfold bitmapSet
  rw [if_pos h]
  cases v with
  | true =>
    exact bitmapMark_eq hword
  | false =>
    rw [if_neg Bool.false_ne_true]
    refine updateElem_eq hword fun e j hj => ?_
    rw [BitVec.getLsbD_and, BitVec.getLsbD_not, getLsbD_bitMask i hj]
    by_cases hji : j = i % 32 <;> simp [hji, hj]

/-! ### Ranges of bits -/

theorem inRange_of_le (h : start + cnt ≤ b.bitCnt) : b.InRange start cnt := by
  have := b.fits
  refine ⟨by omega, ?_⟩
  rw [Nat.mod_eq_of_lt (by omega)]
  exact h

theorem setLoop_eq (v : Bool) : ∀ (n : ℕ) {i : ℕ} {b : Bitmap}, i + n ≤ b.bitCnt →
    ∃ b', setLoop v n i b = some b' ∧ b'.bitCnt = b.bitCnt ∧ b'.bit = fill b.bit i v n
  | 0, i, b, _ => ⟨b, rfl, rfl, (fill_zero ..).symm⟩
  | n + 1, i, b, h => by
    obtain ⟨b₁, hset, hcnt, hbit⟩ := bitmapSet_eq v (show i < b.bitCnt by omega)
    obtain ⟨b₂, hloop, hcnt', hbit'⟩ := setLoop_eq v n (show i + 1 + n ≤ b₁.bitCnt by omega)
    refine ⟨b₂, by rw [setLoop, hset]; exact hloop, hcnt'.trans hcnt, ?_⟩
    rw [hbit', hbit, ← fill_one, fill_fill_add, Nat.add_comm 1 n]

/-- **`bitmap_set_multiple` fills a range.** -/
theorem bitmapSetMultiple_eq (v : Bool) (h : start + cnt ≤ b.bitCnt) :
    ∃ b', bitmapSetMultiple b start cnt v = some b' ∧ b'.bitCnt = b.bitCnt ∧ b'.bit = fill b.bit start v cnt := by
  unfold bitmapSetMultiple
  rw [if_pos (inRange_of_le h)]
  exact setLoop_eq v cnt h

theorem containsLoop_eq (v : Bool) : ∀ (n : ℕ) {i : ℕ}, i + n ≤ b.bitCnt →
    ∃ r, containsLoop b v n i = some r ∧ (r = true ↔ ∃ k, i ≤ k ∧ k < i + n ∧ b.bit k = v)
  | 0, i, _ => ⟨false, rfl, by simp; omega⟩
  | n + 1, i, h => by
    rw [containsLoop, bitmapTest_eq (by omega), Option.bind_some]
    by_cases hbit : b.bit i = v
    · rw [if_pos hbit]
      exact ⟨true, rfl, fun _ => ⟨i, Nat.le_refl i, by omega, hbit⟩, fun _ => rfl⟩
    · rw [if_neg hbit]
      obtain ⟨r, hloop, hr⟩ := containsLoop_eq v n (show i + 1 + n ≤ b.bitCnt by omega)
      refine ⟨r, hloop, hr.trans ⟨?_, ?_⟩⟩
      · rintro ⟨k, hik, hk, hv⟩
        exact ⟨k, by omega, by omega, hv⟩
      · rintro ⟨k, hik, hk, hv⟩
        have hne : i ≠ k := fun he => hbit (he ▸ hv)
        exact ⟨k, by omega, by omega, hv⟩

theorem bitmapContains_eq (v : Bool) (h : start + cnt ≤ b.bitCnt) :
    ∃ r, bitmapContains b start cnt v = some r ∧
      (r = true ↔ ∃ k, start ≤ k ∧ k < start + cnt ∧ b.bit k = v) := by
  unfold bitmapContains
  rw [if_pos (inRange_of_le h)]
  exact containsLoop_eq v cnt h

theorem group_iff_not_contains (v : Bool) (h : start + cnt ≤ b.bitCnt) :
    b.Group cnt v start ↔ ¬ ∃ k, start ≤ k ∧ k < start + cnt ∧ b.bit k = !v := by
  constructor
  · rintro ⟨-, hall⟩ ⟨k, hk, hk', hbit⟩
    rw [hall k hk hk'] at hbit
    cases v <;> cases hbit
  · intro hnone
    refine ⟨h, fun k hk hk' => ?_⟩
    by_contra hbit
    refine hnone ⟨k, hk, hk', ?_⟩
    cases v <;> simpa using hbit

/-- **`bitmap_all` looks at a range.** -/
theorem bitmapAll_eq (h : start + cnt ≤ b.bitCnt) :
    ∃ r, bitmapAll b start cnt = some r ∧ (r = true ↔ b.Group cnt true start) := by
  obtain ⟨r, hrun, hr⟩ := bitmapContains_eq false h
  refine ⟨!r, by rw [bitmapAll, hrun]; rfl, ?_⟩
  rw [group_iff_not_contains true h, Bool.not_true, ← hr, Bool.not_eq_true']
  simp

/-! ### Scanning -/

theorem scanLoop_eq (cnt : ℕ) (v : Bool) : ∀ (n : ℕ) {i : ℕ}, i + n + cnt ≤ b.bitCnt + 1 →
    ∃ r, scanLoop b cnt v n i = some r ∧
      ((∃ j, r = some j ∧ i ≤ j ∧ b.Group cnt v j ∧ ∀ k, i ≤ k → k < j → ¬ b.Group cnt v k) ∨
        (r = none ∧ ∀ k, i ≤ k → k < i + n → ¬ b.Group cnt v k))
  | 0, i, _ => ⟨none, rfl, .inr ⟨rfl, fun k hk hk' => by omega⟩⟩
  | n + 1, i, h => by
    have hi : i + cnt ≤ b.bitCnt := by omega
    obtain ⟨r, hrun, hr⟩ := bitmapContains_eq (!v) hi
    rw [scanLoop, hrun, Option.bind_some]
    cases r with
    | false =>
      have hgroup : b.Group cnt v i := (group_iff_not_contains v hi).mpr fun hex => by
        cases hr.mpr hex
      exact ⟨some i, rfl, .inl ⟨i, rfl, Nat.le_refl i, hgroup, fun k hk hk' => by omega⟩⟩
    | true =>
      have hnot : ¬ b.Group cnt v i := fun hgroup => (group_iff_not_contains v hi).mp hgroup (hr.mp rfl)
      obtain ⟨r, hloop, hr⟩ := scanLoop_eq cnt v n (show i + 1 + n + cnt ≤ b.bitCnt + 1 by omega)
      refine ⟨r, hloop, ?_⟩
      have hstep : ∀ m, (∀ k, i + 1 ≤ k → k < m → ¬ b.Group cnt v k) → ∀ k, i ≤ k → k < m → ¬ b.Group cnt v k := by
        intro m hm k hk hk'
        obtain rfl | hlt := Nat.eq_or_lt_of_le hk
        · exact hnot
        · exact hm k hlt hk'
      obtain ⟨j, rfl, hj, hgroup, hbefore⟩ | ⟨rfl, hnone⟩ := hr
      · exact .inl ⟨j, rfl, by omega, hgroup, hstep j hbefore⟩
      · exact .inr ⟨rfl, hstep _ fun k hk hk' => hnone k hk (by omega)⟩

/-- **`bitmap_scan` finds the first group**, and fails only when there is none. -/
theorem bitmapScan_eq (cnt : ℕ) (v : Bool) (h : start ≤ b.bitCnt) :
    ∃ r, bitmapScan b start cnt v = some r ∧
      ((∃ j, r = some j ∧ IsLeast {i | start ≤ i ∧ b.Group cnt v i} j) ∨
        (r = none ∧ ∀ i, start ≤ i → ¬ b.Group cnt v i)) := by
  unfold bitmapScan
  rw [if_pos h]
  by_cases hcnt : cnt ≤ b.bitCnt
  case neg =>
    rw [if_neg hcnt]
    exact ⟨none, rfl, .inr ⟨rfl, fun i _ hgroup => hcnt (by have := hgroup.1; omega)⟩⟩
  rw [if_pos hcnt]
  obtain hlast | hlast := Nat.lt_or_ge (b.bitCnt - cnt) start
  · rw [show b.bitCnt - cnt + 1 - start = 0 by omega]
    exact ⟨none, rfl, .inr ⟨rfl, fun i hi hgroup => by have := hgroup.1; omega⟩⟩
  obtain ⟨r, hrun, hr⟩ := scanLoop_eq (b := b) cnt v (b.bitCnt - cnt + 1 - start) (i := start) (by omega)
  refine ⟨r, hrun, ?_⟩
  obtain ⟨j, rfl, hj, hgroup, hbefore⟩ | ⟨rfl, hnone⟩ := hr
  · refine .inl ⟨j, rfl, ⟨hj, hgroup⟩, fun i hi => ?_⟩
    by_contra hlt
    exact hbefore i hi.1 (by omega) hi.2
  · exact .inr ⟨rfl, fun i hi hgroup => hnone i hi (by have := hgroup.1; omega) hgroup⟩

/-- **`bitmap_scan_and_flip` flips the first group**, and nothing else. -/
theorem bitmapScanAndFlip_eq (cnt : ℕ) (v : Bool) (h : start ≤ b.bitCnt) :
    (∃ j b', bitmapScanAndFlip b start cnt v = some (some j, b') ∧
        IsLeast {i | start ≤ i ∧ b.Group cnt v i} j ∧ b'.bitCnt = b.bitCnt ∧ b'.bit = fill b.bit j (!v) cnt) ∨
      (bitmapScanAndFlip b start cnt v = some (none, b) ∧ ∀ i, start ≤ i → ¬ b.Group cnt v i) := by
  obtain ⟨r, hscan, hr⟩ := bitmapScan_eq cnt v h
  unfold bitmapScanAndFlip
  rw [hscan, Option.bind_some]
  obtain ⟨j, rfl, hleast⟩ | ⟨rfl, hnone⟩ := hr
  · obtain ⟨b', hset, hcnt, hbit⟩ := bitmapSetMultiple_eq (!v) hleast.1.2.1
    refine .inl ⟨j, b', ?_, hleast, hcnt, hbit⟩
    dsimp only
    rw [hset]
    rfl
  · exact .inr ⟨rfl, hnone⟩

/-- **`bitmap_scan` returns the first group, or `BITMAP_ERROR` when there is none, and
`bitmap_scan_and_flip` changes exactly its bits.** `Bitmap.bit` has the bits of all words, also
those that are not in use. -/
theorem bitmap_scan_exact (b : Bitmap) (start cnt : ℕ) (value : Bool) (h : start ≤ b.bitCnt) :
    ∃ r b', bitmapScan b start cnt value = some r ∧ bitmapScanAndFlip b start cnt value = some (r, b') ∧
      (∀ j, r = some j ↔ IsLeast {i | start ≤ i ∧ b.Group cnt value i} j) ∧
      (r = none ↔ ∀ i, start ≤ i → ¬ b.Group cnt value i) ∧ b'.bitCnt = b.bitCnt ∧ (r = none → b' = b) ∧
      ∀ j, r = some j → ∀ i, b'.bit i = if j ≤ i ∧ i < j + cnt then !value else b.bit i := by
  obtain ⟨r, hscan, ⟨j, rfl, hleast⟩ | ⟨rfl, hnone⟩⟩ := bitmapScan_eq cnt value h
  · obtain ⟨b', hset, hcnt, hbit⟩ := bitmapSetMultiple_eq (!value) hleast.1.2.1
    refine ⟨some j, b', hscan, by simp [bitmapScanAndFlip, hscan, hset], fun k => ?_, ?_, hcnt, by simp, ?_⟩
    · rw [Option.some_inj]
      exact ⟨fun hk => hk ▸ hleast, fun hk => Nat.le_antisymm (hleast.2 hk.1) (hk.2 hleast.1)⟩
    · simp only [reduceCtorEq, false_iff]
      exact fun hnone => hnone j hleast.1.1 hleast.1.2
    · rintro _ ⟨⟩ i
      rw [hbit]
      rfl
  · refine ⟨none, b, hscan, by simp [bitmapScanAndFlip, hscan], fun k => ?_, by simpa using hnone,
      rfl, fun _ => rfl, by simp⟩
    simp only [reduceCtorEq, false_iff]
    exact fun hk => hnone k hk.1.1 hk.1.2

/-- 40 bits, of which only the first is set: the second word is partial. -/
def oneOfForty : Bitmap := ⟨40, fun k => if k = 0 then 1#32 else 0#32, by decide⟩

/-- Bits 1 to 35 are the first group of 35, across the words. -/
theorem bitmap_scan_exact_across : ∃ b', bitmapScanAndFlip oneOfForty 0 35 false = some (some 1, b') ∧
    ∀ i, b'.bit i = if 1 ≤ i ∧ i < 1 + 35 then true else oneOfForty.bit i := by
  obtain ⟨r, b', hscan, hflip, -, -, -, -, hbit⟩ := bitmap_scan_exact oneOfForty 0 35 false (by decide)
  obtain rfl : r = some 1 := Option.some.inj (hscan.symm.trans (by decide))
  exact ⟨b', hflip, hbit 1 rfl⟩

/-! ### Creation, and the words as bytes -/

/-- **`bitmap_create`** makes a bitmap without bits, or fails for want of memory or because there
are too many bits. -/
theorem bitmapCreate_eq (block words : Option Bytes) (bitCnt : ℕ) :
    ∃ r, bitmapCreate block words bitCnt = some r ∧
      ((∃ b, r = some b ∧ b.bitCnt = bitCnt ∧ ∀ i < bitCnt, b.bit i = false) ∨
        (r = none ∧ (block = none ∨ words = none ∨ 2 ^ 32 ≤ bitCnt + 31))) := by
  unfold bitmapCreate
  cases block with
  | none => exact ⟨none, rfl, .inr ⟨rfl, .inl rfl⟩⟩
  | some _ =>
    dsimp only
    split
    · rename_i fits
      have hall : 0 + bitCnt ≤ (⟨bitCnt, wordsOf (words.getD fun _ => 0), fits.2⟩ : Bitmap).bitCnt :=
        Nat.le_of_eq (Nat.zero_add bitCnt)
      obtain ⟨b, hset, hcnt, hbit⟩ := bitmapSetMultiple_eq false hall
      refine ⟨some b, by rw [bitmapSetAll, hset]; rfl, .inl ⟨b, rfl, hcnt, fun i hi => ?_⟩⟩
      rw [hbit, fill_of_mem (by omega) (by omega)]
    · rename_i hfits
      refine ⟨none, rfl, .inr ⟨rfl, .inr ?_⟩⟩
      cases words with
      | none => exact .inl rfl
      | some _ => exact .inr (by simpa using hfits)

/-- **`bitmap_create_in_buf`** makes a bitmap without bits where there is room. -/
theorem bitmapCreateInBuf_eq {bitCnt blockSize : ℕ} (words : Bytes) (hsize : bitmapBufSize bitCnt ≤ blockSize)
    (hfits : bitCnt + 31 < 2 ^ 32) :
    ∃ b, bitmapCreateInBuf bitCnt words blockSize = some b ∧ b.bitCnt = bitCnt ∧ ∀ i < bitCnt, b.bit i = false := by
  have hall : 0 + bitCnt ≤ (⟨bitCnt, wordsOf words, hfits⟩ : Bitmap).bitCnt := Nat.le_of_eq (Nat.zero_add bitCnt)
  obtain ⟨b, hset, hcnt, hbit⟩ := bitmapSetMultiple_eq false hall
  refine ⟨b, ?_, hcnt, fun i hi => ?_⟩
  · rw [bitmapCreateInBuf, dif_pos ⟨hsize, hfits⟩, bitmapSetAll]
    exact hset
  · rw [hbit, fill_of_mem (by omega) (by omega)]

theorem word_bytes (b : Bitmap) (k : ℕ) : word b.bytes (4 * k) = (b.bits k).toNat := by
  refine word_of_wordBytes (b.bits k).isLt fun j hj => ?_
  unfold Bitmap.bytes
  rw [show (4 * k + j) / 4 = k by omega, show (4 * k + j) % 4 = j by omega]

theorem wordsOf_eq {m : Bytes} {k : ℕ} (h : ∀ j < 4, m (4 * k + j) = b.bytes (4 * k + j)) :
    wordsOf m k = b.bits k := by
  unfold wordsOf
  rw [word_congr h, word_bytes, BitVec.ofNat_toNat, BitVec.setWidth_eq]

theorem getLsbD_lowMask {n : ℕ} (hn : n < 32) (j : ℕ) : (1#32 <<< n - 1).getLsbD j = decide (j < n) := by
  have hpow : 2 ^ n < 2 ^ 32 := Nat.pow_lt_pow_right (by decide) hn
  have hpos : 0 < 2 ^ n := Nat.two_pow_pos n
  have hval : (1#32 <<< n - 1).toNat = 2 ^ n - 1 := by
    have hone : (1 : BitVec 32).toNat = 1 := rfl
    rw [BitVec.toNat_sub, BitVec.toNat_shiftLeft, hone, Nat.shiftLeft_eq]
    rw [show (1#32).toNat = 1 from rfl, Nat.one_mul, Nat.mod_eq_of_lt hpow]
    omega
  rw [BitVec.getLsbD, hval, Nat.testBit_two_pow_sub_one]

theorem getLsbD_lastMask (b : Bitmap) (hpos : 0 < b.bitCnt) {i : ℕ} (hlast : i / 32 = elemCnt b.bitCnt - 1) :
    (lastMask b).getLsbD (i % 32) = decide (i < b.bitCnt) := by
  rw [b.elemCnt_eq] at hlast
  unfold lastMask
  dsimp only
  split
  · rw [getLsbD_lowMask (Nat.mod_lt _ (by decide))]
    exact decide_eq_decide.mpr (by omega)
  · rw [show (-1 : BitVec 32) = BitVec.allOnes 32 from rfl, BitVec.getLsbD_allOnes]
    exact decide_eq_decide.mpr (by omega)

end Pintos.Lib
