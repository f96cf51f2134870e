import Mathlib.Data.Set.Insert

/-!
# Searching a sorted array (`lib/stdlib.c`)

`binary_search` and `bsearch`. A comparison is a function of two addresses, in the memory as it is,
and `none` where there is nothing to compare. The result is the address of an element or null; the
loop is bounded by `fuel`.
-/

namespace Pintos.Lib.Search

/-- The loop of `binary_search`. -/
def searchLoop (compare : ℕ → Option ℤ) (size : ℕ) : (fuel first last : ℕ) → Option (Option ℕ)
  | 0, _, _ => none
  | fuel + 1, first, last =>
    if first < last then do
      let range := (last - first) / size
      let middle := first + range / 2 * size
      let cmp ← compare middle
      if cmp < 0 then searchLoop compare size fuel first middle
      else if cmp > 0 then searchLoop compare size fuel (middle + size) last
      else some (some middle)
    else some none

/-- Search a sorted array for `key`. -/
def binarySearch {α : Type} (fuel key array cnt size : ℕ) (compare : ℕ → ℕ → α → Option ℤ) (aux : α) : Option (Option ℕ) :=
  searchLoop (compare key · aux) size fuel array (array + size * cnt)

/-- The comparison of `bsearch` is what `aux` points to. -/
def compareThunk (a b : ℕ) (aux : ℕ → ℕ → Option ℤ) : Option ℤ := aux a b

/-- `binary_search` with the comparison of C. -/
def bsearch (fuel key array cnt size : ℕ) (compare : ℕ → ℕ → Option ℤ) : Option (Option ℕ) :=
  binarySearch fuel key array cnt size compareThunk compare

/-- The loop, when the elements before `lo` are less than the key and those from `hi` on are
greater. -/
theorem searchLoop_eq (array : ℕ) (compare : ℕ → Option ℤ) (c : ℕ → ℤ) {cnt size : ℕ} (hsize : 0 < size)
    (hcompare : ∀ i < cnt, compare (array + size * i) = some (c i))
    (hneg : ∀ i j, i ≤ j → j < cnt → c i < 0 → c j < 0) (hpos : ∀ i j, i ≤ j → j < cnt → 0 < c j → 0 < c i) (fuel : ℕ) :
    ∀ {lo hi : ℕ}, lo ≤ hi → hi ≤ cnt → hi - lo < fuel → (∀ i < lo, 0 < c i) → (∀ i, hi ≤ i → i < cnt → c i < 0) →
      ∃ r, searchLoop compare size fuel (array + size * lo) (array + size * hi) = some r ∧
        (∀ a, r = some a → ∃ i < cnt, a = array + size * i ∧ c i = 0) ∧ (r = none → ∀ i < cnt, c i ≠ 0) := by
  induction fuel with
  | zero => omega
  | succ fuel ih =>
    intro lo hi hle hcnt hfuel hless hgreater
    rw [searchLoop]
    obtain rfl | hlt := Nat.eq_or_lt_of_le hle
    · rw [if_neg (Nat.lt_irrefl _)]
      refine ⟨none, rfl, nofun, fun _ i hi => ?_⟩
      obtain hi' | hi' := Nat.lt_or_ge i lo
      · exact (hless i hi').ne'
      · exact (hgreater i hi' hi).ne
    · have hrange : (array + size * hi - (array + size * lo)) / size = hi - lo := by
        rw [Nat.add_sub_add_left, ← Nat.mul_sub, Nat.mul_div_cancel_left _ hsize]
      have hmiddle : array + size * lo + (hi - lo) / 2 * size = array + size * (lo + (hi - lo) / 2) := by
        rw [Nat.mul_add, Nat.add_assoc, Nat.mul_comm size ((hi - lo) / 2)]
      rw [if_pos (Nat.add_lt_add_left (Nat.mul_lt_mul_of_pos_left hlt hsize) _), hrange]
      dsimp only
      obtain ⟨hmid, hmid'⟩ : lo ≤ lo + (hi - lo) / 2 ∧ lo + (hi - lo) / 2 < hi := by omega
      generalize lo + (hi - lo) / 2 = mid at hmiddle hmid hmid'
      rw [hmiddle, hcompare mid (by omega), Option.bind_eq_bind, Option.bind_some]
      obtain hc | hc | hc := lt_trichotomy (c mid) 0
      · rw [if_pos hc]
        exact ih hmid (by omega) (by omega) hless fun i hi hi' => hneg mid i hi hi' hc
      · rw [if_neg hc.not_lt, if_neg hc.not_gt]
        exact ⟨_, rfl, fun a ha => ⟨mid, by omega, (Option.some.inj ha).symm, hc⟩, nofun⟩
      · rw [if_neg hc.not_gt, if_pos hc, Nat.add_assoc, ← Nat.mul_succ]
        exact ih hmid' hcnt (by omega) (fun i hi => hpos i mid (Nat.le_of_lt_succ hi) (by omega) hc) hgreater

/-- **A sorted array is searched**: the result is an element that equals the key, or null if there
is none. The comparison is a total preorder on the key and the elements, and need not be defined
anywhere else. -/
theorem binary_search_finds {α : Type} (compare : ℕ → ℕ → α → Option ℤ) (aux : α) (key array cnt size fuel : ℕ)
    (c : ℕ → ℕ → ℤ) (hsize : 0 < size) (hfuel : cnt < fuel)
    (S : Set ℕ) (hS : S = insert key { a | ∃ i < cnt, a = array + size * i })
    (hcompare : ∀ i < cnt, compare key (array + size * i) aux = some (c key (array + size * i)))
    (hswap : ∀ a ∈ S, ∀ b ∈ S, c a b < 0 ↔ 0 < c b a)
    (htrans : ∀ x ∈ S, ∀ y ∈ S, ∀ z ∈ S, c x y ≤ 0 → c y z ≤ 0 → c x z ≤ 0)
    (hsorted : ∀ i j, i < j → j < cnt → c (array + size * i) (array + size * j) ≤ 0) :
    ∃ r, binarySearch fuel key array cnt size compare aux = some r ∧
      bsearch fuel key array cnt size (compare · · aux) = some r ∧
      (∀ a, r = some a → ∃ i < cnt, a = array + size * i ∧ c key a = 0) ∧
      (r = none ↔ ∀ i < cnt, c key (array + size * i) ≠ 0) := by
  have hkey : key ∈ S := hS ▸ .inl rfl
  have hmem : ∀ i < cnt, array + size * i ∈ S := fun i hi => hS ▸ .inr ⟨i, hi, rfl⟩
  have hle : ∀ i j, i ≤ j → j < cnt → c (array + size * i) (array + size * j) ≤ 0 := by
    intro i j hij hj
    obtain rfl | hlt := Nat.eq_or_lt_of_le hij
    · have hself := hswap _ (hmem i hj) _ (hmem i hj)
      omega
    · exact hsorted i j hlt hj
  have hpos : ∀ i j, i ≤ j → j < cnt → 0 < c key (array + size * j) → 0 < c key (array + size * i) := by
    intro i j hij hj hpos
    by_contra hge
    exact absurd (htrans _ hkey _ (hmem i (by omega)) _ (hmem j hj) (not_lt.mp hge) (hle i j hij hj)) (not_le.mpr hpos)
  have hneg : ∀ i j, i ≤ j → j < cnt → c key (array + size * i) < 0 → c key (array + size * j) < 0 := by
    intro i j hij hj hneg
    have hi := hmem i (by omega)
    by_contra hge
    have hback := not_lt.mp (mt (hswap _ hkey _ (hmem j hj)).mpr hge)
    exact absurd (htrans _ hi _ (hmem j hj) _ hkey (hle i j hij hj) hback) (not_le.mpr ((hswap _ hkey _ hi).mp hneg))
  obtain ⟨r, hrun, hfound, hnone⟩ := searchLoop_eq array (compare key · aux) (fun i => c key (array + size * i)) hsize
    hcompare hneg hpos fuel (Nat.zero_le cnt) (Nat.le_refl cnt) hfuel nofun fun i hi hi' => absurd hi' (not_lt.mpr hi)
  refine ⟨r, hrun, hrun, fun a ha => ?_, hnone, fun hall => ?_⟩
  · obtain ⟨i, hi, rfl, hc⟩ := hfound a ha
    exact ⟨i, hi, rfl, hc⟩
  · cases r with
    | none => rfl
    | some a =>
      obtain ⟨i, hi, -, hc⟩ := hfound a rfl
      exact absurd hc (hall i hi)

/-- Three elements of two bytes, the last two equal to the key. -/
theorem binary_search_finds_three : ∃ r, bsearch 4 100 10 3 2 (fun a b => some (min a 12 - min b 12)) = some (some r) := by
  obtain ⟨r, -, hrun, -, hnone⟩ := binary_search_finds
    (fun a b (_ : Unit) => some (min a 12 - min b 12 : ℤ)) () 100 10 3 2 4
    (fun a b => min a 12 - min b 12) (by decide) (by decide) _ rfl (fun i _ => rfl) (fun a _ b _ => by omega)
    (fun x _ y _ z _ => by omega) fun i j _ _ => by omega
  cases r with
  | none => exact absurd rfl (hnone.mp rfl 1 (by decide))
  | some r => exact ⟨r, hrun⟩

end Pintos.Lib.Search
