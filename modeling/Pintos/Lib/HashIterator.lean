import Pintos.Lib.Hash

/-!
# Iterating over a hash table (`lib/kernel/hash.c`)

`hash_first`, `hash_next` and `hash_cur` go through the elements of a table one at a time, and
`hash_apply` all at once. The place of an element in its bucket is counted from the head of the
list, which is place 0; the end of the list is the place behind its elements. The loop of
`hash_next` makes at most one round for each bucket.

**`iterates_all`**: the iterator gives every element of a table once, wherever there are empty
buckets, and in the order of `hash_apply`.
-/

namespace Pintos.Lib.Hash

open Program

/-- `struct hash_iterator`. -/
structure Iterator where
  /-- The index of `bucket`. -/
  bucket : ℕ
  /-- The place of `elem`. -/
  elem : Option ℕ

section Functions

variable {α : Type}

/-- Before the first element. -/
def hashFirst : Iterator := ⟨0, some 0⟩

/-- The loop of `hash_next`. -/
def nextLoop (h : Hash α) : (fuel bucket place : ℕ) → Option Iterator
  | 0, _, _ => none
  | fuel + 1, bucket, place => do
    let list ← h.buckets[bucket]?
    if place = list.length + 1 then
      if bucket + 1 ≥ h.bucketCnt then some ⟨bucket + 1, none⟩ else nextLoop h fuel (bucket + 1) 1
    else some ⟨bucket, some place⟩

/-- The next element, in this bucket or a later one. -/
def hashNext (h : Hash α) (i : Iterator) : Option Iterator := do
  nextLoop h h.bucketCnt i.bucket ((← i.elem) + 1)

/-- `hash_cur`, of an iterator that is at an element. -/
def hashCur (h : Hash α) (i : Iterator) : Option α := do
  let list ← h.buckets[i.bucket]?
  list[(← i.elem) - 1]?

/-- The elements that are left: `while (hash_next (&i)) .. hash_cur (&i) ..`. -/
def iterate (h : Hash α) : (fuel : ℕ) → Iterator → Option (List α)
  | 0, _ => none
  | fuel + 1, i => do
    let i ← hashNext h i
    if i.elem = none then some []
    else
      let e ← hashCur h i
      return e :: (← iterate h fuel i)

/-- The loop of `hash_apply`, with the elements that `action` is called for. -/
def applyLoop : (n i : ℕ) → HashM α (List α)
  | 0, _ => return []
  | n + 1, i => do
    let bucket ← bucketAt i
    return bucket ++ (← applyLoop n (i + 1))

/-- The elements `action` is called with. -/
def hashApply : HashM α (List α) := do applyLoop (← get).bucketCnt 0

end Functions

variable {α : Type} {h : Hash α} (hlen : h.buckets.length = h.bucketCnt)

/-- What comes behind a place. -/
def rest (h : Hash α) (bucket place : ℕ) : List α :=
  (h.buckets[bucket]?.getD []).drop place ++ (h.buckets.drop (bucket + 1)).flatten

/-- The place is the head of a bucket, or that of an element. -/
def IsPlace (h : Hash α) (bucket place : ℕ) : Prop := ∃ list, h.buckets[bucket]? = some list ∧ place ≤ list.length

theorem flatten_drop {b : ℕ} (hb : b < h.buckets.length) : (h.buckets.drop b).flatten = rest h b 0 := by
  rw [List.drop_eq_getElem_cons hb, rest, List.getElem?_eq_getElem hb]
  rfl

include hlen

/-- **`hash_next` goes to the next element**, past the buckets that are empty. -/
theorem nextLoop_run {fuel b p : ℕ} (hplace : IsPlace h b p) (hfuel : h.bucketCnt ≤ b + fuel) :
    (rest h b p = [] ∧ nextLoop h fuel b (p + 1) = some ⟨h.bucketCnt, none⟩) ∨
      ∃ b' p' e, nextLoop h fuel b (p + 1) = some ⟨b', some (p' + 1)⟩ ∧ IsPlace h b' (p' + 1) ∧
        hashCur h ⟨b', some (p' + 1)⟩ = some e ∧ rest h b p = e :: rest h b' (p' + 1) := by
  induction fuel generalizing b p with
  | zero =>
    obtain ⟨list, hlist, -⟩ := hplace
    obtain ⟨hb, -⟩ := List.getElem?_eq_some_iff.mp hlist
    omega
  | succ fuel ih =>
    obtain ⟨list, hlist, hp⟩ := hplace
    obtain ⟨hb, -⟩ := List.getElem?_eq_some_iff.mp hlist
    rw [nextLoop, hlist, Option.bind_eq_bind, Option.bind_some]
    obtain rfl | hlt := Nat.eq_or_lt_of_le hp
    · have hrest : rest h b list.length = (h.buckets.drop (b + 1)).flatten := by simp [rest, hlist]
      rw [if_pos rfl, hrest]
      by_cases hlast : b + 1 ≥ h.bucketCnt
      · rw [if_pos hlast, List.drop_eq_nil_of_le (by omega)]
        exact .inl ⟨rfl, by rw [show b + 1 = h.bucketCnt by omega]⟩
      · have hnext : h.buckets[b + 1]? = some h.buckets[b + 1] := List.getElem?_eq_getElem (by omega)
        rw [if_neg hlast, flatten_drop (by omega)]
        exact ih ⟨_, hnext, Nat.zero_le _⟩ (by omega)
    · rw [if_neg (by omega)]
      refine .inr ⟨b, p, list[p], rfl, ⟨list, hlist, hlt⟩, ?_, ?_⟩
      · simp [hashCur, hlist]
      · simp only [rest, hlist, Option.getD_some]
        rw [List.drop_eq_getElem_cons hlt]
        rfl

theorem iterate_run {fuel b p : ℕ} (hplace : IsPlace h b p) (hfuel : (rest h b p).length < fuel) :
    iterate h fuel ⟨b, some p⟩ = some (rest h b p) := by
  induction fuel generalizing b p with
  | zero => omega
  | succ fuel ih =>
    have hnext : hashNext h ⟨b, some p⟩ = nextLoop h h.bucketCnt b (p + 1) := rfl
    rw [iterate, hnext]
    obtain ⟨hrest, hrun⟩ | ⟨b', p', e, hrun, hplace', hcur, hrest⟩ := nextLoop_run hlen hplace (Nat.le_add_left ..)
    · rw [hrun, hrest]
      rfl
    · rw [hrest, List.length_cons] at hfuel
      rw [hrun, Option.bind_eq_bind, Option.bind_some, if_neg (Option.some_ne_none _), hcur, hrest]
      simp [ih hplace' (by omega)]

theorem applyLoop_run {n i : ℕ} (hi : i + n = h.bucketCnt) : applyLoop n i h = .ok ((h.buckets.drop i).flatten, h) := by
  induction n generalizing i with
  | zero =>
    rw [List.drop_eq_nil_of_le (by omega)]
    rfl
  | succ n ih =>
    have hbucket : bucketAt i h = .ok (h.buckets[i], h) := by
      unfold bucketAt
      rw [get_bind_run, List.getElem?_eq_getElem]
      rfl
    have hdrop : h.buckets.drop i = h.buckets[i] :: h.buckets.drop (i + 1) := List.drop_eq_getElem_cons _
    rw [applyLoop, bind_run_ok hbucket, bind_run_ok (ih (by omega)), hdrop]
    rfl

omit hlen

/-- **An iterator gives every element of the table once**, in the order of `hash_apply`, and then no
element. -/
theorem iterates_all [DecidableEq α] {hash : α → ℕ} {S : Finset α} (ht : Table hash h S) {fuel : ℕ}
    (hfuel : S.card < fuel) :
    ∃ l, l.Nodup ∧ (∀ e, e ∈ l ↔ e ∈ S) ∧ iterate h fuel hashFirst = some l ∧ hashApply h = .ok (l, h) := by
  have helems := ht.kept.filled.elems
  have hlen := ht.kept.filled.length
  have hpos : 0 < h.bucketCnt := by
    obtain ⟨k, -, hcnt⟩ := ht.kept.size
    rw [hcnt]
    exact Nat.two_pow_pos k
  have hfirst : h.buckets[0]? = some h.buckets[0] := List.getElem?_eq_getElem (by omega)
  have hrest : rest h 0 0 = h.buckets.flatten := (flatten_drop (by omega)).symm
  refine ⟨h.buckets.flatten, helems.nodup_iff.mpr S.nodup_toList,
    fun e => by rw [helems.mem_iff, Finset.mem_toList], ?_, ?_⟩
  · rw [← hrest]
    refine iterate_run hlen ⟨_, hfirst, Nat.zero_le _⟩ ?_
    rwa [hrest, helems.length_eq, Finset.length_toList]
  · exact applyLoop_run hlen (Nat.zero_add _)

/-- A table of one element: three of its four buckets are empty. -/
theorem iterates_all_one : ∃ (h : Hash ℕ) (l : List ℕ), (∀ e, e ∈ l ↔ e = 6) ∧ iterate h 2 hashFirst = some l := by
  obtain ⟨-, h₁, -, -, ht₁⟩ := (hashInit_ends (· % 10) ⟨0, 0, []⟩).returns
  obtain ⟨-, h, -, ht⟩ := (ht₁.insertElem_ends (Finset.notMem_empty 6)).returns
  obtain ⟨l, -, hmem, hrun, -⟩ := iterates_all ht (by decide : _ < 2)
  exact ⟨h, l, fun e => by rw [hmem e]; simp, hrun⟩

end Pintos.Lib.Hash
