import Mathlib.Algebra.Group.Nat.Defs
import Mathlib.Data.Finset.Card
import Pintos.Basis.Buckets
import Pintos.Basis.Program

/-!
# Hash tables (`lib/kernel/hash.c`)

A table keeps its elements in buckets, an array of lists. Every call that changes the
number of elements may move all of them to an array of another size (`rehash`), if there is memory
for it.

## The model

An element is known by its pointer, and `NULL` is `none`. The functions `hash` and `less` of a table
are fixed when it is made, so they are parameters here. A bucket is the sequence of its elements:
`list_push_front` puts an element in front, and `list_remove` takes an element out of the bucket it
is in, whichever that is (`Pintos.Lib.KernelList` says that this is what they do). An index behind
the array of the buckets is an error. Whether `malloc` has memory is an argument of the calls.

## What is proved

A table stands for a set of elements, of which no two are equal under `less` (`SetStep` says what
the calls do to it). **`hash_table`**: from `hash_init` on, any calls return what they are to return
for the set, and the table is a table of that set, with a power of two for its number of buckets and
every element in the bucket of its hash value.
-/

namespace Pintos.Lib

open Program

/-- A hash table. -/
structure Hash (α : Type) where
  elemCnt : ℕ
  bucketCnt : ℕ
  buckets : List (List α)

namespace Hash

/-- What must not happen. -/
inductive Fault where
  /-- An index behind the array of the buckets. -/
  | outOfBounds

/-- Code that works on a table. -/
abbrev HashM (α : Type) := Program (Hash α) Fault

/-! ### The number of buckets -/

/-- `x` without its lowest bit. -/
def turnOffLeast1bit (x : ℕ) : ℕ := x &&& (x - 1)

/-- Exactly one bit is set. -/
def isPowerOf2 (x : ℕ) : Bool := x != 0 && turnOffLeast1bit x == 0

theorem turnOffLeast1bit_lt {x : ℕ} (hx : x ≠ 0) : turnOffLeast1bit x < x := by
  have hle : x &&& (x - 1) ≤ x - 1 := Nat.and_le_right
  unfold turnOffLeast1bit
  omega

theorem turnOffLeast1bit_ne_zero {x : ℕ} (hx : x ≠ 0) (hpow : isPowerOf2 x ≠ true) : turnOffLeast1bit x ≠ 0 := by
  intro hzero
  exact hpow (by simp [isPowerOf2, hx, hzero])

/-- The loop of `rehash`: `while (!is_power_of_2 (n)) n = turn_off_least_1bit (n)`. It would not end
for zero. -/
def roundDown (n : ℕ) (hn : n ≠ 0) : ℕ :=
  if hpow : isPowerOf2 n = true then n
  else roundDown (turnOffLeast1bit n) (turnOffLeast1bit_ne_zero hn hpow)
termination_by n
decreasing_by exact turnOffLeast1bit_lt hn

/-- The number of buckets `rehash` wants for `elem_cnt` elements. -/
def newBucketCnt (elemCnt : ℕ) : ℕ :=
  roundDown (if elemCnt / 2 < 4 then 4 else elemCnt / 2) (by split <;> omega)

theorem two_pow_le_turnOffLeast1bit {n k : ℕ} (hk : 2 ^ k ≤ n) (hlt : n < 2 ^ (k + 1)) (hne : n ≠ 2 ^ k) :
    2 ^ k ≤ turnOffLeast1bit n := by
  have hbit : ∀ m, 2 ^ k ≤ m → m < 2 ^ (k + 1) → m.testBit k = true := by
    intro m hkm hm
    have hdiv : m / 2 ^ k = 1 := Nat.div_eq_of_lt_le (by omega) (by rw [Nat.pow_succ] at hm; omega)
    rw [Nat.testBit_eq_decide_div_mod_eq, hdiv]
    rfl
  apply Nat.ge_two_pow_of_testBit
  rw [turnOffLeast1bit, Nat.testBit_and, hbit n hk hlt, hbit (n - 1) (by omega) (by omega)]
  rfl

theorem isPowerOf2_iff {n k : ℕ} (hk : 2 ^ k ≤ n) (hlt : n < 2 ^ (k + 1)) : isPowerOf2 n = true ↔ n = 2 ^ k := by
  constructor
  · intro hpow
    by_contra hne
    have hle := two_pow_le_turnOffLeast1bit hk hlt hne
    simp [isPowerOf2] at hpow
    omega
  · rintro rfl
    simp [isPowerOf2, turnOffLeast1bit, Nat.and_two_pow_sub_one_eq_mod]

theorem roundDown_eq {k : ℕ} (n : ℕ) (hn : n ≠ 0) (hk : 2 ^ k ≤ n) (hlt : n < 2 ^ (k + 1)) : roundDown n hn = 2 ^ k := by
  induction n using Nat.strongRecOn with
  | ind n ih =>
    rw [roundDown]
    by_cases hpow : isPowerOf2 n = true
    · rw [dif_pos hpow]
      exact (isPowerOf2_iff hk hlt).mp hpow
    · rw [dif_neg hpow]
      have hdec := turnOffLeast1bit_lt hn
      have hne : n ≠ 2 ^ k := fun he => hpow ((isPowerOf2_iff hk hlt).mpr he)
      exact ih _ hdec _ (two_pow_le_turnOffLeast1bit hk hlt hne) (by omega)

/-- The number of buckets is a power of two, and at least four. -/
theorem newBucketCnt_eq (elemCnt : ℕ) : ∃ k, 2 ≤ k ∧ newBucketCnt elemCnt = 2 ^ k := by
  have hpos : ∀ n, 4 ≤ n → ∀ hn : n ≠ 0, ∃ k, 2 ≤ k ∧ roundDown n hn = 2 ^ k := by
    intro n h4 hn
    exact ⟨n.log2, (Nat.le_log2 hn).mpr h4, roundDown_eq n hn (Nat.log2_self_le hn) Nat.lt_log2_self⟩
  exact hpos _ (by split <;> omega) _

/-! ### The functions -/

section Functions

variable {α : Type} [DecidableEq α] (hash : α → ℕ) (less : α → α → Bool)

/-- `&h->buckets[i]`, when the bucket is accessed. -/
def bucketAt (i : ℕ) : HashM α (List α) := do
  match (← get).buckets[i]? with
  | some bucket => return bucket
  | none => throw .outOfBounds

/-- `list_push_front` on a bucket. -/
def pushFront (i : ℕ) (e : α) : HashM α Unit := do
  let bucket ← bucketAt i
  modify fun h => { h with buckets := h.buckets.set i (e :: bucket) }

/-- The destructor's calls, and `list_init`, for the buckets from `i` on: the loop of
`hash_clear`. -/
def clearLoop (destructor : Bool) : (n i : ℕ) → HashM α (List α)
  | 0, _ => return []
  | n + 1, i => do
    let bucket ← bucketAt i
    modify fun h => { h with buckets := h.buckets.set i [] }
    let rest ← clearLoop destructor n (i + 1)
    return (if destructor then bucket else []) ++ rest

/-- `hash_clear`. Returns the elements that the destructor is called for, if there is one. -/
def hashClear (destructor : Bool) : HashM α (List α) := do
  let called ← clearLoop destructor (← get).bucketCnt 0
  modify fun h => { h with elemCnt := 0 }
  return called

/-- `hash_init`, on a table with any content. -/
def hashInit (malloc : Bool) : HashM α Bool := do
  if malloc then
    -- lists that are not initialised yet; `hash_clear` without destructor does not read them
    set ({ elemCnt := 0, bucketCnt := 4, buckets := List.replicate 4 [] } : Hash α)
    let _ ← hashClear false
    return true
  else
    set ({ elemCnt := 0, bucketCnt := 4, buckets := [] } : Hash α)
    return false

/-- `find_bucket`: the index of the bucket. -/
def findBucket (e : α) : HashM α ℕ := do
  return hash e &&& ((← get).bucketCnt - 1)

/-- The first element of the bucket that equals `e`. -/
def findElem (bucket : ℕ) (e : α) : HashM α (Option α) := do
  return (← bucketAt bucket).find? fun hi => !less hi e && !less e hi

/-- Put `e` in front of the bucket. -/
def insertElem (bucket : ℕ) (e : α) : HashM α Unit := do
  modify fun h => { h with elemCnt := h.elemCnt + 1 }
  pushFront bucket e

/-- Take `e` out of its bucket. -/
def removeElem (e : α) : HashM α Unit :=
  modify fun h => { h with elemCnt := h.elemCnt - 1, buckets := h.buckets.map (List.filter fun x => x ≠ e) }

/-- The inner loop of `rehash`: the elements of an old bucket go to their new ones. -/
def moveBucket : List α → HashM α Unit
  | [] => return ()
  | e :: bucket => do
    pushFront (← findBucket hash e) e
    moveBucket bucket

/-- The outer loop of `rehash`. -/
def moveBuckets (oldBuckets : List (List α)) : (n i : ℕ) → HashM α Unit
  | 0, _ => return ()
  | n + 1, i => do
    match oldBuckets[i]? with
    | some bucket =>
      moveBucket hash bucket
      moveBuckets oldBuckets n (i + 1)
    | none => throw .outOfBounds

/-- Change the number of buckets, if it is due. -/
def rehash (malloc : Bool) : HashM α Unit := do
  let old ← get
  let newCnt := newBucketCnt old.elemCnt
  if newCnt = old.bucketCnt then return ()
  else if malloc then
    set ({ old with bucketCnt := newCnt, buckets := List.replicate newCnt [] } : Hash α)
    moveBuckets hash old.buckets old.bucketCnt 0
  else return ()

/-- Insert `new`, or return the equal element. -/
def hashInsert (malloc : Bool) (new : α) : HashM α (Option α) := do
  let bucket ← findBucket hash new
  let old ← findElem less bucket new
  if old = none then insertElem bucket new
  rehash hash malloc
  return old

/-- Insert `new` in place of the equal element. -/
def hashReplace (malloc : Bool) (new : α) : HashM α (Option α) := do
  let bucket ← findBucket hash new
  let old ← findElem less bucket new
  if let some found := old then removeElem found
  insertElem bucket new
  rehash hash malloc
  return old

/-- The element that equals `e`. -/
def hashFind (e : α) : HashM α (Option α) := do
  findElem less (← findBucket hash e) e

/-- Take out the element that equals `e`. -/
def hashDelete (malloc : Bool) (e : α) : HashM α (Option α) := do
  let found ← findElem less (← findBucket hash e) e
  if let some x := found then
    removeElem x
    rehash hash malloc
  return found

inductive Call (α : Type) where
  /-- `hash_insert`. -/
  | insert (new : α)
  /-- `hash_replace`. -/
  | replace (new : α)
  /-- `hash_find`. -/
  | find (e : α)
  /-- `hash_delete`. -/
  | delete (e : α)
  /-- `hash_clear`. -/
  | clear (destructor : Bool)

/-- Run a call; `malloc` tells whether it gets memory. -/
def Call.run (malloc : Bool) : Call α → HashM α (Option α)
  | .insert new => hashInsert hash less malloc new
  | .replace new => hashReplace hash less malloc new
  | .find e => hashFind hash less e
  | .delete e => hashDelete hash less malloc e
  | .clear destructor => do
    let _ ← hashClear destructor
    return none

/-- Run calls one after the other, with what they return. -/
def runCalls : List (Call α × Bool) → HashM α (List (Option α))
  | [] => return []
  | (call, malloc) :: calls => do
    let result ← call.run hash less malloc
    return result :: (← runCalls calls)

end Functions

/-! ### The set -/

section Set

variable {α : Type} [DecidableEq α] (less : α → α → Bool)

/-- The elements are equal under `less`. -/
def Equal (x y : α) : Prop := less x y = false ∧ less y x = false

/-- What is to be found for `e`: the element equal to it, or that there is none. -/
def Found (S : Finset α) (e : α) : Option α → Prop
  | some x => x ∈ S ∧ Equal less x e
  | none => ∀ x ∈ S, ¬ Equal less x e

/-- What a call does to the set, and what it returns. -/
inductive SetStep (S : Finset α) : Call α → Option α → Finset α → Prop where
  | insert {e : α} (h : Found less S e none) : SetStep S (.insert e) none (insert e S)
  | insert_equal {e x : α} (h : Found less S e (some x)) : SetStep S (.insert e) (some x) S
  | replace {e : α} (h : Found less S e none) : SetStep S (.replace e) none (insert e S)
  | replace_equal {e x : α} (h : Found less S e (some x)) : SetStep S (.replace e) (some x) (insert e (S.erase x))
  | find {e : α} {r : Option α} (h : Found less S e r) : SetStep S (.find e) r S
  | delete {e : α} (h : Found less S e none) : SetStep S (.delete e) none S
  | delete_equal {e x : α} (h : Found less S e (some x)) : SetStep S (.delete e) (some x) (S.erase x)
  | clear {destructor : Bool} : SetStep S (.clear destructor) none ∅

/-- Calls one after the other. -/
inductive SetRun : Finset α → List (Call α) → List (Option α) → Finset α → Prop where
  | nil (S : Finset α) : SetRun S [] [] S
  | cons {S T U : Finset α} {call : Call α} {calls : List (Call α)} {r : Option α} {results : List (Option α)}
    (step : SetStep less S call r T) (rest : SetRun T calls results U) : SetRun S (call :: calls) (r :: results) U

/-- No two elements of the set are equal under `less`. -/
def OnePerClass (S : Finset α) : Prop := ∀ x ∈ S, ∀ y ∈ S, Equal less x y → x = y

end Set

/-! ### The functions keep the table -/

section Table

variable {α : Type} [DecidableEq α] {hash : α → ℕ} {less : α → α → Bool} {h : Hash α} {S : Finset α} {l : List α} {e : α}

/-- The bucket of an element. -/
def place (hash : α → ℕ) (h : Hash α) (e : α) : ℕ := hash e % h.bucketCnt

/-- The buckets have the elements `l`. -/
structure Kept (hash : α → ℕ) (h : Hash α) (l : List α) : Prop where
  /-- The number of buckets is a power of two, and at least four. -/
  size : ∃ k, 2 ≤ k ∧ h.bucketCnt = 2 ^ k
  /-- Each element is in its bucket. -/
  filled : Filled (place hash h) h.bucketCnt h.buckets l

/-- The table is one of the set. -/
structure Table (hash : α → ℕ) (h : Hash α) (S : Finset α) : Prop where
  /-- The elements are those of the set, each of them once. -/
  kept : Kept hash h S.toList
  /-- They are counted. -/
  count : h.elemCnt = S.card

omit [DecidableEq α] in
theorem Kept.perm {l' : List α} (hk : Kept hash h l) (hl : l.Perm l') : Kept hash h l' := ⟨hk.size, hk.filled.perm hl⟩

omit [DecidableEq α] in
theorem Kept.findBucket_run (hk : Kept hash h l) (e : α) : findBucket hash e h = .ok (place hash h e, h) := by
  obtain ⟨k, -, hcnt⟩ := hk.size
  have hrun : findBucket hash e h = .ok (hash e &&& (h.bucketCnt - 1), h) := rfl
  rw [hrun, place, hcnt, Nat.and_two_pow_sub_one_eq_mod]

omit [DecidableEq α] in
theorem Kept.exists_bucket (hk : Kept hash h l) (e : α) : ∃ bucket, h.buckets[place hash h e]? = some bucket := by
  obtain ⟨k, -, hcnt⟩ := hk.size
  have hpos : 0 < h.bucketCnt := by
    rw [hcnt]
    exact Nat.two_pow_pos k
  exact hk.filled.exists_bucket (Nat.mod_lt _ hpos)

omit [DecidableEq α] in
theorem bucketAt_run {i : ℕ} {bucket : List α} (hb : h.buckets[i]? = some bucket) : bucketAt i h = .ok (bucket, h) := by
  unfold bucketAt
  rw [get_bind_run, hb]
  rfl

omit [DecidableEq α] in
theorem Kept.pushFront_ends (hk : Kept hash h l) (e : α) :
    Ends Never (pushFront (place hash h e) e) h fun _ h' =>
      Kept hash h' (e :: l) ∧ h'.bucketCnt = h.bucketCnt ∧ h'.elemCnt = h.elemCnt := by
  obtain ⟨bucket, hb⟩ := hk.exists_bucket e
  exact .run_bind (bucketAt_run hb) ⟨⟨hk.size, hk.filled.cons hb⟩, rfl, rfl⟩

omit [DecidableEq α] in
theorem Kept.moveBucket_ends (hk : Kept hash h l) (bucket : List α) :
    Ends Never (moveBucket hash bucket) h fun _ h' => Kept hash h' (bucket ++ l) ∧ h'.elemCnt = h.elemCnt := by
  induction bucket generalizing h l with
  | nil => exact .pure ⟨hk, rfl⟩
  | cons e bucket ih =>
    refine .run_bind (hk.findBucket_run e) (.bind (hk.pushFront_ends e) ?_)
    rintro - h₁ ⟨hk₁, -, hcnt₁⟩
    refine (ih hk₁).mono ?_
    rintro - h₂ ⟨hk₂, hcnt₂⟩
    exact ⟨hk₂.perm List.perm_middle, hcnt₂.trans hcnt₁⟩

omit [DecidableEq α] in
theorem Kept.moveBuckets_ends (hk : Kept hash h l) {old : List (List α)} {n i : ℕ} (hlen : old.length = i + n) :
    Ends Never (moveBuckets hash old n i) h fun _ h' =>
      Kept hash h' ((old.drop i).flatten ++ l) ∧ h'.elemCnt = h.elemCnt := by
  induction n generalizing h l i with
  | zero =>
    refine .pure ⟨?_, rfl⟩
    rwa [List.drop_eq_nil_of_le (by omega)]
  | succ n ih =>
    have hi : i < old.length := by omega
    rw [moveBuckets, List.getElem?_eq_getElem hi]
    refine .bind (hk.moveBucket_ends old[i]) ?_
    rintro - h₁ ⟨hk₁, hcnt₁⟩
    refine (ih hk₁ (by omega)).mono ?_
    rintro - h₂ ⟨hk₂, hcnt₂⟩
    refine ⟨hk₂.perm ?_, hcnt₂.trans hcnt₁⟩
    rw [List.drop_eq_getElem_cons hi, List.flatten_cons, List.append_assoc]
    exact List.perm_append_comm_assoc _ _ _

omit [DecidableEq α] in
/-- **`rehash` keeps all elements**, whether it gets memory or not. -/
theorem Table.rehash_ends (ht : Table hash h S) (malloc : Bool) :
    Ends Never (rehash hash malloc) h fun _ h' => Table hash h' S := by
  refine .get_bind ?_
  by_cases hsame : newBucketCnt h.elemCnt = h.bucketCnt
  · rw [if_pos hsame]
    exact .pure ht
  · rw [if_neg hsame]
    cases malloc with
    | false => exact .pure ht
    | true =>
      have hempty : Kept hash
          { h with bucketCnt := newBucketCnt h.elemCnt, buckets := List.replicate (newBucketCnt h.elemCnt) [] } [] :=
        ⟨newBucketCnt_eq _, Filled.empty _ _⟩
      refine (hempty.moveBuckets_ends (by rw [ht.kept.filled.length, Nat.zero_add])).mono ?_
      rintro - h' ⟨hk, hcnt⟩
      refine ⟨hk.perm ?_, hcnt.trans ht.count⟩
      rw [List.drop_zero, List.append_nil]
      exact ht.kept.filled.elems

omit [DecidableEq α] in
theorem Table.findElem_run (ht : Table hash h S) (hhash : ∀ x y, Equal less x y → hash x = hash y) (e : α) :
    ∃ r, findElem less (place hash h e) e h = .ok (r, h) ∧ Found less S e r := by
  obtain ⟨bucket, hb⟩ := ht.kept.exists_bucket e
  have hequal : ∀ x, (!less x e && !less e x) = true ↔ Equal less x e := by simp [Equal]
  refine ⟨bucket.find? fun x => !less x e && !less e x, ?_, ?_⟩
  · unfold findElem
    rw [bind_run_ok (bucketAt_run hb)]
    rfl
  · have hplace : ∀ x, (!less x e && !less e x) = true → place hash h x = place hash h e := by
      intro x hx
      rw [place, hhash x e ((hequal x).mp hx), place]
    cases hr : bucket.find? fun x => !less x e && !less e x with
    | none =>
      intro x hx
      rw [← hequal]
      exact (ht.kept.filled.find?_eq_none_iff hb hplace).mp hr x (Finset.mem_toList.mpr hx)
    | some x =>
      have hmem := ((ht.kept.filled.mem_bucket hb).mp (List.mem_of_find?_eq_some hr)).1
      have hx := List.find?_some hr
      exact ⟨Finset.mem_toList.mp hmem, (hequal x).mp hx⟩

theorem Table.insertElem_ends (ht : Table hash h S) (he : e ∉ S) :
    Ends Never (insertElem (place hash h e) e) h fun _ h' => Table hash h' (insert e S) := by
  have hk : Kept hash { h with elemCnt := h.elemCnt + 1 } S.toList := ⟨ht.kept.size, ht.kept.filled⟩
  refine .modify_bind ((hk.pushFront_ends e).mono ?_)
  rintro - h' ⟨hk', -, hcnt⟩
  refine ⟨hk'.perm (Finset.toList_insert he).symm, ?_⟩
  rw [hcnt, Finset.card_insert_of_notMem he, ht.count]

theorem Table.removeElem_run (ht : Table hash h S) (he : e ∈ S) :
    ∃ h', removeElem e h = .ok ((), h') ∧ h'.bucketCnt = h.bucketCnt ∧ Table hash h' (S.erase e) := by
  refine ⟨_, rfl, rfl, ⟨ht.kept.size, ?_⟩, ?_⟩
  · refine (ht.kept.filled.filter fun x => x ≠ e).perm ?_
    rw [List.perm_ext_iff_of_nodup (S.nodup_toList.filter _) (Finset.nodup_toList _)]
    simp [and_comm]
  · change h.elemCnt - 1 = _
    rw [ht.count, Finset.card_erase_of_mem he]

omit [DecidableEq α] in
theorem clearLoop_run (destructor : Bool) {n i : ℕ} {rest : List (List α)} (hlen : rest.length = n)
    (hb : h.buckets = List.replicate i [] ++ rest) :
    clearLoop destructor n i h =
      .ok (if destructor then rest.flatten else [], { h with buckets := List.replicate (i + n) [] }) := by
  induction n generalizing h i rest with
  | zero =>
    obtain rfl := List.length_eq_zero_iff.mp hlen
    rw [List.append_nil] at hb
    rw [Nat.add_zero, ← hb, List.flatten_nil, ite_self]
    rfl
  | succ n ih =>
    obtain ⟨bucket, rest, rfl⟩ := List.exists_cons_of_length_eq_add_one hlen
    have hat : h.buckets[i]? = some bucket := by simp [hb]
    have hset : h.buckets.set i [] = List.replicate (i + 1) [] ++ rest := by
      rw [hb, List.set_append_right _ _ (by simp), List.replicate_succ']
      simp
    have hrest := ih (h := { h with buckets := h.buckets.set i [] }) (Nat.succ.inj hlen) hset
    rw [clearLoop, bind_run_ok (bucketAt_run hat)]
    have hmodify : (modify fun h => { h with buckets := h.buckets.set i [] } : HashM α PUnit) h =
      .ok (⟨⟩, { h with buckets := h.buckets.set i [] }) := rfl
    rw [bind_run_ok hmodify, bind_run_ok hrest, show i + 1 + n = i + (n + 1) by omega]
    cases destructor <;> rfl

omit [DecidableEq α] in
/-- **`hash_clear`.** The destructor is called for each element, once. -/
theorem Table.hashClear_ends (ht : Table hash h S) (destructor : Bool) :
    Ends Never (hashClear destructor) h fun called h' =>
      Table hash h' ∅ ∧ (destructor = true → called.Perm S.toList) := by
  have hrun := clearLoop_run (h := h) (i := 0) destructor ht.kept.filled.length (List.nil_append _).symm
  refine .get_bind (.run_bind hrun ?_)
  refine .modify_bind (.pure ⟨⟨⟨ht.kept.size, ?_⟩, Finset.card_empty.symm⟩, ?_⟩)
  · rw [Finset.toList_empty, Nat.zero_add]
    exact Filled.empty _ _
  · rintro rfl
    exact ht.kept.filled.elems

omit [DecidableEq α] in
theorem hashInit_ends (hash : α → ℕ) (h : Hash α) :
    Ends Never (hashInit true) h fun ok h' => ok = true ∧ Table hash h' ∅ := by
  have hempty : Table hash { elemCnt := 0, bucketCnt := 4, buckets := List.replicate 4 [] } ∅ := by
    refine ⟨⟨⟨2, Nat.le_refl 2, rfl⟩, ?_⟩, rfl⟩
    rw [Finset.toList_empty]
    exact Filled.empty _ _
  exact .set_bind (.bind (hempty.hashClear_ends false) fun _ h' ht => .pure ⟨rfl, ht.1⟩)

end Table

section Calls

variable {α : Type} [DecidableEq α] {hash : α → ℕ} {less : α → α → Bool} {h : Hash α} {S T : Finset α} {e x : α}

omit [DecidableEq α] in
theorem Equal.symm {y : α} (hxy : Equal less x y) : Equal less y x := ⟨hxy.2, hxy.1⟩

section Order

variable [hord : IsStrictWeakOrder α fun x y => less x y = true]

omit [DecidableEq α] in
theorem Equal.refl (x : α) : Equal less x x := by
  have hx : ¬ less x x = true := hord.irrefl x
  exact ⟨by simpa using hx, by simpa using hx⟩

omit [DecidableEq α] in
theorem Equal.trans {y z : α} (hxy : Equal less x y) (hyz : Equal less y z) : Equal less x z := by
  have hxz := hord.incomp_trans x y z (by simpa [Equal] using hxy) (by simpa [Equal] using hyz)
  simpa [Equal] using hxz

omit [DecidableEq α] in
theorem Found.notMem (hf : Found less S e none) : e ∉ S := fun he => hf e he (Equal.refl e)

omit hord in
/-- Nor is it in the set without the one that is equal to it. -/
theorem Found.notMem_erase (hone : OnePerClass less S) (hf : Found less S e (some x)) : e ∉ S.erase x := by
  intro he
  obtain ⟨hne, he⟩ := Finset.mem_erase.mp he
  exact hne (hone x hf.1 e he hf.2).symm

/-- **A call leaves at most one element of each class.** -/
theorem SetStep.onePerClass {call : Call α} {r : Option α} (hs : SetStep less S call r T) (hone : OnePerClass less S) :
    OnePerClass less T := by
  have hinsert : ∀ U : Finset α, OnePerClass less U → ∀ e, Found less U e none →
      OnePerClass less (Insert.insert e U) := by
    intro U hU e hf x hx y hy hxy
    rcases Finset.mem_insert.mp hx with rfl | hxU
    · rcases Finset.mem_insert.mp hy with rfl | hyU
      · rfl
      · exact absurd hxy.symm (hf y hyU)
    · rcases Finset.mem_insert.mp hy with rfl | hyU
      · exact absurd hxy (hf x hxU)
      · exact hU x hxU y hyU hxy
  have herase : ∀ x, OnePerClass less (S.erase x) := fun x y hy z hz =>
    hone y (Finset.mem_of_mem_erase hy) z (Finset.mem_of_mem_erase hz)
  cases hs with
  | insert hf | replace hf => exact hinsert S hone _ hf
  | insert_equal hf | find hf | delete hf => exact hone
  | @replace_equal e x hf =>
    refine hinsert _ (herase x) e fun y hy hye => ?_
    obtain ⟨hne, hy⟩ := Finset.mem_erase.mp hy
    exact hne (hone y hy x hf.1 (hye.trans hf.2.symm))
  | delete_equal hf => exact herase _
  | clear => exact fun x hx => absurd hx (Finset.notMem_empty x)

section

variable (ht : Table hash h S) (hone : OnePerClass less S) (hhash : ∀ x y, Equal less x y → hash x = hash y)
include ht hone hhash

/-- **A call does to the table what it is to do to the set.** -/
theorem Table.call_ends (call : Call α) (malloc : Bool) :
    Ends Never (call.run hash less malloc) h fun r h' => ∃ T, SetStep less S call r T ∧ Table hash h' T := by
  cases call with
  | insert new =>
    obtain ⟨r, hrun, hf⟩ := ht.findElem_run hhash new
    refine .run_bind (ht.kept.findBucket_run new) (.run_bind hrun ?_)
    cases r with
    | none =>
      refine .bind (ht.insertElem_ends hf.notMem) fun _ h₁ ht₁ => ?_
      exact .bind (ht₁.rehash_ends malloc) fun _ h₂ ht₂ => .pure ⟨_, .insert hf, ht₂⟩
    | some x => exact .bind (ht.rehash_ends malloc) fun _ h₁ ht₁ => .pure ⟨_, .insert_equal hf, ht₁⟩
  | replace new =>
    obtain ⟨r, hrun, hf⟩ := ht.findElem_run hhash new
    refine .run_bind (ht.kept.findBucket_run new) (.run_bind hrun ?_)
    cases r with
    | none =>
      refine .bind (ht.insertElem_ends hf.notMem) fun _ h₁ ht₁ => ?_
      exact .bind (ht₁.rehash_ends malloc) fun _ h₂ ht₂ => .pure ⟨_, .replace hf, ht₂⟩
    | some x =>
      obtain ⟨h₁, hremove, hcnt, ht₁⟩ := ht.removeElem_run hf.1
      have hplace : place hash h new = place hash h₁ new := by rw [place, place, hcnt]
      rw [hplace]
      refine .run_bind hremove (.bind (ht₁.insertElem_ends (hf.notMem_erase hone)) fun _ h₂ ht₂ => ?_)
      exact .bind (ht₂.rehash_ends malloc) fun _ h₃ ht₃ => .pure ⟨_, .replace_equal hf, ht₃⟩
  | find e =>
    obtain ⟨r, hrun, hf⟩ := ht.findElem_run hhash e
    refine .run_bind (ht.kept.findBucket_run e) ?_
    unfold Ends
    rw [hrun]
    exact ⟨S, .find hf, ht⟩
  | delete e =>
    obtain ⟨r, hrun, hf⟩ := ht.findElem_run hhash e
    refine .run_bind (ht.kept.findBucket_run e) (.run_bind hrun ?_)
    cases r with
    | none => exact .pure ⟨S, .delete hf, ht⟩
    | some x =>
      obtain ⟨h₁, hremove, -, ht₁⟩ := ht.removeElem_run hf.1
      refine .run_bind hremove (.bind (ht₁.rehash_ends malloc) fun _ h₂ ht₂ => ?_)
      exact .pure ⟨_, .delete_equal hf, ht₂⟩
  | clear destructor => exact .bind (ht.hashClear_ends destructor) fun _ h₁ ht₁ => .pure ⟨∅, .clear, ht₁.1⟩

theorem Table.runCalls_ends (calls : List (Call α × Bool)) :
    Ends Never (runCalls hash less calls) h fun results h' =>
      ∃ T, SetRun less S (calls.map Prod.fst) results T ∧ OnePerClass less T ∧ Table hash h' T := by
  induction calls generalizing h S with
  | nil => exact .pure ⟨S, .nil S, hone, ht⟩
  | cons call calls ih =>
    refine .bind (ht.call_ends hone hhash call.1 call.2) ?_
    rintro r h₁ ⟨T, hstep, ht₁⟩
    refine .bind (ih ht₁ (hstep.onePerClass hone)) ?_
    rintro results h₂ ⟨U, hrun, hone₂, ht₂⟩
    exact .pure ⟨U, .cons hstep hrun, hone₂, ht₂⟩

end

end Order

/-- **A hash table is a set with at most one element of each class.** From `hash_init` on, whatever
the table was before, and whether `rehash` gets memory or not. -/
theorem hash_table (hash : α → ℕ) (less : α → α → Bool) (hless : IsStrictWeakOrder α fun x y => less x y = true)
    (hhash : ∀ x y, Equal less x y → hash x = hash y) (h₀ : Hash α) (calls : List (Call α × Bool)) :
    ∃ h₁ results h S,
      hashInit true h₀ = .ok (true, h₁) ∧ runCalls hash less calls h₁ = .ok (results, h) ∧
      -- what the calls return is what they return for the set, which has at most one element of each class
      SetRun less ∅ (calls.map Prod.fst) results S ∧ OnePerClass less S ∧
      -- the elements of the table are those of the set, each of them once, and they are counted
      h.buckets.flatten.Nodup ∧ (∀ e, e ∈ h.buckets.flatten ↔ e ∈ S) ∧ h.elemCnt = h.buckets.flatten.length ∧
      -- the number of buckets
      (∃ k, h.bucketCnt = 2 ^ k) ∧ 4 ≤ h.bucketCnt ∧ h.buckets.length = h.bucketCnt ∧
      -- each element is in its bucket
      ∀ i bucket, h.buckets[i]? = some bucket → ∀ e ∈ bucket, i = hash e % h.bucketCnt := by
  obtain ⟨ok, h₁, hinit, rfl, ht₁⟩ := (hashInit_ends hash h₀).returns
  have hempty : OnePerClass less ∅ := fun x hx => absurd hx (Finset.notMem_empty x)
  obtain ⟨results, h, hrun, S, hset, hone, ht⟩ :=
    (ht₁.runCalls_ends hempty hhash calls).returns
  have helems := ht.kept.filled.elems
  obtain ⟨k, hk, hcnt⟩ := ht.kept.size
  refine ⟨h₁, results, h, S, hinit, hrun, hset, hone, helems.nodup_iff.mpr S.nodup_toList, fun e => ?_, ?_, ⟨k, hcnt⟩, ?_,
    ht.kept.filled.length, fun i bucket hb e he => (ht.kept.filled.placed i bucket hb e he).symm⟩
  · rw [helems.mem_iff, Finset.mem_toList]
  · rw [ht.count, helems.length_eq, Finset.length_toList]
  · rw [hcnt]
    exact Nat.pow_le_pow_right (Nat.zero_lt_two) hk

/-- Numbers with the same last digit are equal, and 13 takes the place of 3. -/
theorem hash_table_digits :
    ∃ h₁ results h, hashInit true ⟨0, 0, []⟩ = .ok (true, h₁) ∧
      runCalls (· % 10) (fun x y => decide (x % 10 < y % 10)) [(.insert 3, false), (.replace 13, true)] h₁ =
        .ok (results, h) ∧
      h.elemCnt = h.buckets.flatten.length := by
  have hless : IsStrictWeakOrder ℕ fun x y => decide (x % 10 < y % 10) = true :=
    { irrefl := fun x => by simp
      incomp_trans := fun x y z hxy hyz => by
        simp only [decide_eq_true_eq] at hxy hyz ⊢
        omega }
  have hhash : ∀ x y : ℕ, Equal (fun x y => decide (x % 10 < y % 10)) x y → x % 10 = y % 10 := by
    intro x y hxy
    simp only [Equal, decide_eq_false_iff_not] at hxy
    omega
  obtain ⟨h₁, results, h, S, hinit, hrun, -, -, -, -, hcnt, -⟩ :=
    hash_table (· % 10) _ hless hhash ⟨0, 0, []⟩ [(.insert 3, false), (.replace 13, true)]
  exact ⟨h₁, results, h, hinit, hrun, hcnt⟩

end Calls

end Hash

end Pintos.Lib
