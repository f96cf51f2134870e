import Pintos.Basis.Links
import Pintos.Basis.Program

/-!
# Kernel lists (`lib/kernel/list.c`)

The lists of the kernel: a `struct list_elem` is embedded in whatever is on a list, and a
`struct list` has two of them as its ends. All queues of the kernel are such lists.

## The model

A pointer to an element is an `Option`, and `NULL` is `none`; the elements are any type, and their
links are the state (`Pintos.Basis.Links`). The functions are those of the source, one assignment
for each of its assignments, and in its order. A failed assertion is an error, and so is an access
through `NULL`. A `struct list` is known by its two ends, and a pointer to one is not `NULL`. The
loops of `list_reverse` and of the traversals need not end when a list is broken, so they have a
bound on their rounds.

## What is proved

**`list_operations`**: on any lists without a common element, the functions do to the sequences of
the elements what they are to do, and leave everything else alone, as long as the elements they get
are on a list, or on none, as they expect. The assertions alone do not see to that: an element that
is appended twice is not refused and breaks its list (`push_back_twice`).
-/

namespace Pintos.Lib.KernelList

open Function Links Program

/-- What stops a function. -/
inductive Fault where
  /-- A failed `ASSERT`. -/
  | assertion
  /-- An access through `NULL`. -/
  | nullPointer
  /-- A loop that does not end within its bound. -/
  | diverges
  deriving DecidableEq

/-- A function on the links of elements. -/
abbrev Elems (ν : Type) := Program (Links ν) Fault

/-- A field of `struct list_elem`. -/
inductive Field where
  | prev
  | next
  deriving DecidableEq

variable {ν : Type}

/-- `ASSERT`. -/
def assert (p : Bool) : Elems ν Unit := if p then pure () else throw .assertion

/-- Read a field, `elem->prev` or `elem->next`. -/
def read (field : Field) : Option ν → Elems ν (Option ν)
  | none => throw .nullPointer
  | some elem => do
    let h ← get
    match field with
    | .prev => return h.prev elem
    | .next => return h.next elem

/-- Only `next` is set. -/
def isHead : Option ν → Elems ν Bool
  | none => return false
  | some elem => do
    let h ← get
    return (h.prev elem).isNone && (h.next elem).isSome

/-- Both links are set. -/
def isInterior : Option ν → Elems ν Bool
  | none => return false
  | some elem => do
    let h ← get
    return (h.prev elem).isSome && (h.next elem).isSome

/-- Only `prev` is set. -/
def isTail : Option ν → Elems ν Bool
  | none => return false
  | some elem => do
    let h ← get
    return (h.prev elem).isSome && (h.next elem).isNone

/-- The front, or the tail if the list is empty. -/
def listBegin (list : Sentinels ν) : Elems ν (Option ν) := read .next (some list.head)

/-- The element after `elem`, or the tail. -/
def listNext (elem : Option ν) : Elems ν (Option ν) := do
  assert ((← isHead elem) || (← isInterior elem))
  read .next elem

/-- The tail. -/
def listEnd (list : Sentinels ν) : Option ν := some list.tail

/-- The back, or the head if the list is empty. -/
def listRbegin (list : Sentinels ν) : Elems ν (Option ν) := read .prev (some list.tail)

/-- The element before `elem`, or the head. -/
def listPrev (elem : Option ν) : Elems ν (Option ν) := do
  assert ((← isInterior elem) || (← isTail elem))
  read .prev elem

/-- The head. -/
def listRend (list : Sentinels ν) : Option ν := some list.head

section Functions

variable [DecidableEq ν]

/-- Write a field. -/
def write (field : Field) (elem value : Option ν) : Elems ν Unit :=
  match elem with
  | none => throw .nullPointer
  | some elem =>
    match field with
    | .prev => modify fun h => h.setPrev elem value
    | .next => modify fun h => h.setNext elem value

/-- The list becomes empty. -/
def listInit (list : Sentinels ν) : Elems ν Unit := do
  write .prev (some list.head) none
  write .next (some list.head) (some list.tail)
  write .prev (some list.tail) (some list.head)
  write .next (some list.tail) none

/-- Put `elem` before `before`. -/
def listInsert (before elem : Option ν) : Elems ν Unit := do
  assert ((← isInterior before) || (← isTail before))
  assert (elem != none)
  write .prev elem (← read .prev before)
  write .next elem before
  write .next (← read .prev before) elem
  write .prev before elem

/-- Move the elements from `first` up to `last` before `before`. -/
def listSplice (before first last : Option ν) : Elems ν Unit := do
  assert ((← isInterior before) || (← isTail before))
  if first = last then return ()
  else
    let last ← listPrev last
    assert (← isInterior first)
    assert (← isInterior last)
    write .next (← read .prev first) (← read .next last)
    write .prev (← read .next last) (← read .prev first)
    write .prev first (← read .prev before)
    write .next last before
    write .next (← read .prev before) first
    write .prev before last

/-- Put `elem` at the front. -/
def listPushFront (list : Sentinels ν) (elem : Option ν) : Elems ν Unit := do
  listInsert (← listBegin list) elem

/-- Put `elem` at the back. -/
def listPushBack (list : Sentinels ν) (elem : Option ν) : Elems ν Unit := listInsert (listEnd list) elem

/-- Take `elem` out, and return what followed it. -/
def listRemove (elem : Option ν) : Elems ν (Option ν) := do
  assert (← isInterior elem)
  write .next (← read .prev elem) (← read .next elem)
  write .prev (← read .next elem) (← read .prev elem)
  read .next elem

/-- The list has no elements. -/
def listEmpty (list : Sentinels ν) : Elems ν Bool := do
  return (← listBegin list) = listEnd list

/-- The first element. -/
def listFront (list : Sentinels ν) : Elems ν (Option ν) := do
  assert (!(← listEmpty list))
  read .next (some list.head)

/-- The last element. -/
def listBack (list : Sentinels ν) : Elems ν (Option ν) := do
  assert (!(← listEmpty list))
  read .prev (some list.tail)

/-- Take the first element out. -/
def listPopFront (list : Sentinels ν) : Elems ν (Option ν) := do
  let front ← listFront list
  let _ ← listRemove front
  return front

/-- Take the last element out. -/
def listPopBack (list : Sentinels ν) : Elems ν (Option ν) := do
  let back ← listBack list
  let _ ← listRemove back
  return back

/-- `swap`, of two fields. -/
def swap (fieldA : Field) (a : Option ν) (fieldB : Field) (b : Option ν) : Elems ν Unit := do
  let t ← read fieldA a
  write fieldA a (← read fieldB b)
  write fieldB b t

/-- The loop of `list_reverse`. -/
def reverseLoop (list : Sentinels ν) : (fuel : ℕ) → (e : Option ν) → Elems ν Unit
  | 0, _ => throw .diverges
  | fuel + 1, e =>
    if e = listEnd list then return ()
    else do
      swap .prev e .next e
      reverseLoop list fuel (← read .prev e)

/-- Reverse the list. -/
def listReverse (fuel : ℕ) (list : Sentinels ν) : Elems ν Unit := do
  if ← listEmpty list then return ()
  else
    reverseLoop list fuel (← listBegin list)
    swap .next (some list.head) .prev (some list.tail)
    swap .prev (← read .next (some list.head)) .next (← read .prev (some list.tail))

/-- The elements from `e` on: `for (; e != list_end (list); e = list_next (e))`. -/
def forward (list : Sentinels ν) : (fuel : ℕ) → (e : Option ν) → Elems ν (List ν)
  | 0, _ => throw .diverges
  | fuel + 1, e =>
    if e = listEnd list then return []
    else do
      return e.toList ++ (← forward list fuel (← listNext e))

/-- The elements from `e` back: `for (; e != list_rend (list); e = list_prev (e))`. -/
def backward (list : Sentinels ν) : (fuel : ℕ) → (e : Option ν) → Elems ν (List ν)
  | 0, _ => throw .diverges
  | fuel + 1, e =>
    if e = listRend list then return []
    else do
      return e.toList ++ (← backward list fuel (← listPrev e))

/-- The elements of a list from front to back. -/
def elements (fuel : ℕ) (list : Sentinels ν) : Elems ν (List ν) := do
  forward list fuel (← listBegin list)

/-- The elements of a list from back to front. -/
def elementsReverse (fuel : ℕ) (list : Sentinels ν) : Elems ν (List ν) := do
  backward list fuel (← listRbegin list)

end Functions

/-! ### What the functions do to the links -/

section Runs

variable {h : Links ν} {e b p q : ν}

theorem assert_run {c : Bool} (hc : c = true) (h : Links ν) : assert c h = .ok ((), h) := by
  subst hc
  rfl

theorem read_prev (e : ν) (h : Links ν) : read .prev (some e) h = .ok (h.prev e, h) := rfl

theorem read_next (e : ν) (h : Links ν) : read .next (some e) h = .ok (h.next e, h) := rfl

theorem isHead_run (e : ν) (h : Links ν) : isHead (some e) h = .ok ((h.prev e).isNone && (h.next e).isSome, h) := rfl

theorem isInterior_run (e : ν) (h : Links ν) :
    isInterior (some e) h = .ok ((h.prev e).isSome && (h.next e).isSome, h) := rfl

theorem isTail_run (e : ν) (h : Links ν) : isTail (some e) h = .ok ((h.prev e).isSome && (h.next e).isNone, h) := rfl

theorem listBegin_run (list : Sentinels ν) (h : Links ν) : listBegin list h = .ok (h.next list.head, h) := rfl

theorem listRbegin_run (list : Sentinels ν) (h : Links ν) : listRbegin list h = .ok (h.prev list.tail, h) := rfl

theorem listNext_run (he : h.next e = some q) : listNext (some e) h = .ok (some q, h) := by
  unfold listNext
  rw [bind_run_ok (isHead_run e h), bind_run_ok (isInterior_run e h), bind_run_ok (assert_run _ h), read_next, he]
  rw [he]
  cases h.prev e with
  | none | some p => rfl

theorem listPrev_run (he : h.prev e = some p) : listPrev (some e) h = .ok (some p, h) := by
  unfold listPrev
  rw [bind_run_ok (isInterior_run e h), bind_run_ok (isTail_run e h), bind_run_ok (assert_run _ h), read_prev, he]
  rw [he]
  cases h.next e with
  | none | some q => rfl

variable [DecidableEq ν]

theorem write_prev (e : ν) (v : Option ν) (h : Links ν) : write .prev (some e) v h = .ok ((), h.setPrev e v) := rfl

theorem write_next (e : ν) (v : Option ν) (h : Links ν) : write .next (some e) v h = .ok ((), h.setNext e v) := rfl

/-- **`list_insert` links the element in.** -/
theorem listInsert_run (hb : h.prev b = some p) (hne : e ≠ b) :
    listInsert (some b) (some e) h = .ok ((), h.link p b e e) := by
  have hassert : ((h.prev b).isSome && (h.next b).isSome || (h.prev b).isSome && (h.next b).isNone) = true := by
    rw [hb]
    cases h.next b with
    | none | some q => rfl
  have hprev : ((h.setPrev e (some p)).setNext e (some b)).prev b = some p := by simp [hne.symm, hb]
  unfold listInsert
  rw [bind_run_ok (isInterior_run b h), bind_run_ok (isTail_run b h), bind_run_ok (assert_run hassert h),
    @bind_run_ok _ _ _ _ (assert (some e != none)) _ h () h rfl, bind_run_ok (read_prev b h), hb,
    bind_run_ok (write_prev e _ h),
    bind_run_ok (write_next e _ _), bind_run_ok (read_prev b _), hprev, bind_run_ok (write_next p _ _), write_prev]
  rfl

/-- **`list_remove` cuts the element out.** -/
theorem listRemove_run (hp : h.prev e = some p) (hq : h.next e = some q) (hpe : p ≠ e) :
    listRemove (some e) h = .ok (some q, h.cut p q) := by
  have hassert : ((h.prev e).isSome && (h.next e).isSome) = true := by rw [hp, hq]; rfl
  have hnext : (h.setNext p (some q)).next e = some q := by simp [hpe.symm, hq]
  have hprev : (h.setNext p (some q)).prev e = some p := hp
  unfold listRemove
  rw [bind_run_ok (isInterior_run e h), bind_run_ok (assert_run hassert h), bind_run_ok (read_prev e h),
    bind_run_ok (read_next e h), hp, hq, bind_run_ok (write_next p _ h), bind_run_ok (read_next e _),
    bind_run_ok (read_prev e _), hnext, hprev, bind_run_ok (write_prev q _ _), read_next, setPrev_next, hnext]
  rfl

/-- **`list_splice` cuts the stretch out and links it in.** -/
theorem listSplice_run {f z l pb : ν} (hb : h.prev b ≠ none) (hfl : f ≠ l) (hl : h.prev l = some z)
    (hf : h.prev f = some p) (hf' : h.next f ≠ none) (hz : h.next z = some q) (hz' : h.prev z ≠ none) (hzp : z ≠ p)
    (hcut : (h.cut p q).prev b = some pb) (hfb : f ≠ b) :
    listSplice (some b) (some f) (some l) h = .ok ((), (h.cut p q).link pb b f z) := by
  have hassert : ((h.prev b).isSome && (h.next b).isSome || (h.prev b).isSome && (h.next b).isNone) = true := by
    rw [Option.isSome_iff_ne_none.mpr hb]
    cases h.next b with
    | none | some q => rfl
  have hfirst : ((h.prev f).isSome && (h.next f).isSome) = true := by
    rw [hf, Option.isSome_iff_ne_none.mpr hf']
    rfl
  have hlast : ((h.prev z).isSome && (h.next z).isSome) = true := by
    rw [hz, Option.isSome_iff_ne_none.mpr hz']
    rfl
  have hnext : (h.setNext p (some q)).next z = some q := by simp [hzp, hz]
  have hprev : (h.setNext p (some q)).prev f = some p := hf
  have hbefore : (((h.cut p q).setPrev f (some pb)).setNext z (some b)).prev b = some pb := by simp [hfb.symm, hcut]
  unfold listSplice
  rw [bind_run_ok (isInterior_run b h), bind_run_ok (isTail_run b h), bind_run_ok (assert_run hassert h),
    if_neg (by simpa using hfl), bind_run_ok (listPrev_run hl), bind_run_ok (isInterior_run f h),
    bind_run_ok (assert_run hfirst h), bind_run_ok (isInterior_run z h), bind_run_ok (assert_run hlast h),
    bind_run_ok (read_prev f h), bind_run_ok (read_next z h), hf, hz, bind_run_ok (write_next p _ h),
    bind_run_ok (read_next z _), bind_run_ok (read_prev f _), hnext, hprev, bind_run_ok (write_prev q _ _)]
  change (read .prev (some b) >>= _) (h.cut p q) = _
  rw [bind_run_ok (read_prev b _), hcut, bind_run_ok (write_prev f _ _), bind_run_ok (write_next z _ _),
    bind_run_ok (read_prev b _), hbefore, bind_run_ok (write_next pb _ _), write_prev]
  rfl

theorem swap_prev_next (a b : ν) (h : Links ν) :
    swap .prev (some a) .next (some b) h = .ok ((), (h.setPrev a (h.next b)).setNext b (h.prev a)) := rfl

theorem swap_next_prev (a b : ν) (h : Links ν) :
    swap .next (some a) .prev (some b) h = .ok ((), (h.setNext a (h.prev b)).setPrev b (h.next a)) := rfl

theorem swap_nil (h : Links ν) : h.swap [] = h := by simp [Links.swap]

variable {l : List ν}

/-- One more element has its fields exchanged. -/
theorem swap_cons {x : ν} (hx : x ∉ l) (h : Links ν) :
    ((h.setPrev x (h.next x)).setNext x (h.prev x)).swap l = h.swap (x :: l) := by
  have hcases : ∀ n, n = x ∨ n ≠ x := fun n => Decidable.em (n = x)
  unfold Links.swap
  congr 1
  all_goals
    funext n
    rcases hcases n with rfl | hn
    · simp [hx]
    · simp [hn]

variable {fuel : ℕ}

omit [DecidableEq ν] in
theorem head_append_tail (s : Sentinels ν) (xs : List ν) : ∃ b, (xs ++ [s.tail]).head? = some b := by
  cases xs with
  | nil | cons x xs => exact ⟨_, rfl⟩

theorem reverseLoop_run {list : Sentinels ν} (hc : h.Chain (l ++ [list.tail]))
    (hnd : (l ++ [list.tail]).Nodup) (hfuel : l.length < fuel) :
    reverseLoop list fuel (l ++ [list.tail]).head? h = .ok ((), h.swap l) := by
  induction l generalizing h fuel with
  | nil =>
    obtain _ | fuel := fuel
    · simp at hfuel
    rw [swap_nil, List.nil_append, List.head?_singleton, reverseLoop, if_pos (show some _ = listEnd list from rfl)]
    rfl
  | cons x l ih =>
    obtain _ | fuel := fuel
    · omega
    obtain ⟨hx, hndl⟩ := List.nodup_cons.mp hnd
    have hxl : x ∉ l := fun hmem => hx (List.mem_append_left _ hmem)
    have hxt : x ≠ list.tail := fun he => hx (he ▸ List.mem_append_right _ (List.mem_singleton_self _))
    obtain ⟨hhead, hrest⟩ := List.isChain_cons.mp hc
    have hnext : h.next x = (l ++ [list.tail]).head? := by
      obtain ⟨y, hy⟩ := head_append_tail list l
      exact (hhead y hy).1.trans hy.symm
    have hrest' : ((h.setPrev x (h.next x)).setNext x (h.prev x)).Chain (l ++ [list.tail]) := by
      refine Chain.congr hrest ?_ ?_
      · intro n hn
        rw [setNext_next, update_of_ne (ne_of_mem_of_not_mem (List.dropLast_subset _ hn) hx), setPrev_next]
      · intro n hn
        rw [setNext_prev, setPrev_prev, update_of_ne (ne_of_mem_of_not_mem (List.mem_of_mem_tail hn) hx)]
    rw [List.cons_append, List.head?_cons, reverseLoop, if_neg (by simpa [listEnd] using hxt),
      bind_run_ok (swap_prev_next x x h), bind_run_ok (read_prev x _)]
    have hstep : ((h.setPrev x (h.next x)).setNext x (h.prev x)).prev x = (l ++ [list.tail]).head? := by simp [hnext]
    rw [hstep, ih hrest' hndl (by simpa using hfuel), swap_cons hxl]

theorem listEmpty_run (list : Sentinels ν) (h : Links ν) :
    listEmpty list h = .ok (decide (h.next list.head = some list.tail), h) := rfl

end Runs

/-! ### Lists -/

section Lists

variable [DecidableEq ν] {h : Links ν} {s : Sentinels ν} {xs : List ν}

omit [DecidableEq ν] in
theorem IsList.next_head (hl : h.IsList s xs) : h.next s.head = (xs ++ [s.tail]).head? := by
  obtain ⟨hhead, -⟩ := List.isChain_cons.mp hl.chain
  cases hx : (xs ++ [s.tail]).head? with
  | none => simp at hx
  | some y => exact (hhead y hx).1

omit [DecidableEq ν] in
theorem IsList.adjacent {u v : List ν} {a b : ν} (hl : h.IsList s xs) (hx : s.nodes xs = u ++ a :: b :: v) :
    h.Adjacent a b := by
  have hc := hl.chain
  rw [hx] at hc
  exact (chain_append_cons_cons.mp hc).2.1

omit [DecidableEq ν] in
theorem IsList.next_ne_none (hl : h.IsList s xs) {e : ν} (he : e ∈ xs) : h.next e ≠ none := by
  obtain ⟨c, d, rfl⟩ := List.append_of_mem he
  cases hd : d ++ [s.tail] with
  | nil => simp at hd
  | cons y v =>
    have hnodes : s.nodes (c ++ e :: d) = (s.head :: c) ++ e :: y :: v := by simp [Sentinels.nodes, hd]
    rw [(IsList.adjacent hl hnodes).1]
    simp

omit [DecidableEq ν] in
theorem IsList.prev_ne_none (hl : h.IsList s xs) {e : ν} (he : e ∈ xs) : h.prev e ≠ none := by
  obtain ⟨c, d, rfl⟩ := List.append_of_mem he
  have hc := (List.dropLast_append_getLast (List.cons_ne_nil s.head c)).symm
  have hnodes : s.nodes (c ++ e :: d) =
      (s.head :: c).dropLast ++ (s.head :: c).getLast (List.cons_ne_nil _ _) :: e :: (d ++ [s.tail]) := by
    calc s.nodes (c ++ e :: d) = (s.head :: c) ++ e :: (d ++ [s.tail]) := by simp [Sentinels.nodes]
      _ = _ := by
        conv_lhs => rw [hc]
        simp
  rw [(IsList.adjacent hl hnodes).2]
  simp

/-- **`list_reverse` turns the links around.** -/
theorem listReverse_run (hl : h.IsList s xs) (hxs : xs ≠ []) (hfuel : xs.length < fuel) :
    listReverse fuel s h = .ok ((), h.turn s xs (xs.head hxs) (xs.getLast hxs)) := by
  obtain ⟨hhead, htail, -, -⟩ := IsList.parts hl
  obtain ⟨-, hfirst, -, hlast, -⟩ := (chain_stretch (u := []) hxs).mp hl.chain
  have hchain : h.Chain (xs ++ [s.tail]) := (List.isChain_cons.mp hl.chain).2
  have hnd : (xs ++ [s.tail]).Nodup := (List.nodup_cons.mp hl.nodup).2
  have hnext : h.next s.head = (xs ++ [s.tail]).head? := IsList.next_head hl
  have hempty : decide (h.next s.head = some s.tail) = false := by
    rw [hfirst.1, decide_eq_false_iff_not, Option.some.injEq]
    exact ne_of_mem_of_not_mem (List.head_mem hxs) htail
  have hfh : xs.head hxs ≠ s.head := ne_of_mem_of_not_mem (List.head_mem hxs) hhead
  have hlt : xs.getLast hxs ≠ s.tail := ne_of_mem_of_not_mem (List.getLast_mem hxs) htail
  have hprevTail : (h.swap xs).prev s.tail = some (xs.getLast hxs) := by simp [Links.swap, htail, hlast.2]
  have hnextHead : (h.swap xs).next s.head = some (xs.head hxs) := by simp [Links.swap, hhead, hfirst.1]
  have hprevLast : (h.swap xs).prev (xs.getLast hxs) = some s.tail := by simp [Links.swap, hlast.1]
  have hnextFirst : (h.swap xs).next (xs.head hxs) = some s.head := by simp [Links.swap, hfirst.2]
  unfold listReverse
  rw [bind_run_ok (listEmpty_run s h), hempty, if_neg (by decide), bind_run_ok (listBegin_run s h), hnext,
    bind_run_ok (reverseLoop_run hchain hnd hfuel), bind_run_ok (swap_next_prev _ _ _), hprevTail, hnextHead]
  set h₂ := ((h.swap xs).setNext s.head (some (xs.getLast hxs))).setPrev s.tail (some (xs.head hxs)) with hh₂
  have hlastOf : h₂.next s.head = some (xs.getLast hxs) := by simp [hh₂]
  have hfirstOf : h₂.prev s.tail = some (xs.head hxs) := by simp [hh₂]
  have hprev : h₂.prev (xs.getLast hxs) = some s.tail := by simp [hh₂, hlt, hprevLast]
  have hnext' : h₂.next (xs.head hxs) = some s.head := by simp [hh₂, hfh, hnextFirst]
  rw [bind_run_ok (read_next s.head h₂), bind_run_ok (read_prev s.tail h₂), hlastOf, hfirstOf,
    swap_prev_next, hnext', hprev]
  rfl

theorem forward_run (hc : h.Chain (l ++ [s.tail])) (hnd : (l ++ [s.tail]).Nodup)
    (hfuel : l.length < fuel) : forward s fuel (l ++ [s.tail]).head? h = .ok (l, h) := by
  induction l generalizing fuel with
  | nil =>
    obtain _ | fuel := fuel
    · simp at hfuel
    rw [List.nil_append, List.head?_singleton, forward, if_pos (show some _ = listEnd s from rfl)]
    rfl
  | cons x l ih =>
    obtain _ | fuel := fuel
    · omega
    obtain ⟨hx, hndl⟩ := List.nodup_cons.mp hnd
    have hxt : x ≠ s.tail := fun he => hx (he ▸ List.mem_append_right _ (List.mem_singleton_self _))
    obtain ⟨hhead, hrest⟩ := List.isChain_cons.mp hc
    obtain ⟨y, hy⟩ := head_append_tail s l
    have hrun := ih hrest hndl (by simpa using hfuel)
    rw [hy] at hrun
    rw [List.cons_append, List.head?_cons, forward, if_neg (by simpa [listEnd] using hxt),
      bind_run_ok (listNext_run (hhead y hy).1), bind_run_ok hrun]
    rfl

theorem backward_run (hc : h.Chain (s.head :: l)) (hnd : (s.head :: l).Nodup)
    (hfuel : l.length < fuel) : backward s fuel (s.head :: l).getLast? h = .ok (l.reverse, h) := by
  induction l using List.reverseRecOn generalizing fuel with
  | nil =>
    obtain _ | fuel := fuel
    · simp at hfuel
    rw [List.getLast?_singleton, backward, if_pos (show some _ = listRend s from rfl)]
    rfl
  | append_singleton l x ih =>
    obtain _ | fuel := fuel
    · omega
    have hne : x ≠ s.head := by
      rintro rfl
      exact (List.nodup_cons.mp hnd).1 (List.mem_append_right _ (List.mem_singleton_self _))
    obtain ⟨y, hy⟩ : ∃ y, (s.head :: l).getLast? = some y := ⟨_, List.getLast?_eq_some_getLast (List.cons_ne_nil _ _)⟩
    rw [← List.cons_append] at hc hnd
    obtain ⟨hrest, -, hlast⟩ := List.isChain_append.mp hc
    have hprev : h.prev x = some y := (hlast y hy x rfl).2
    have hrun := ih hrest hnd.of_append_left (by simpa using hfuel)
    rw [hy] at hrun
    rw [← List.cons_append, List.getLast?_concat, backward, if_neg (by simpa [listRend] using hne),
      bind_run_ok (listPrev_run hprev), bind_run_ok hrun, List.reverse_concat]
    rfl

theorem elements_run (hl : h.IsList s xs) (hfuel : xs.length < fuel) : elements fuel s h = .ok (xs, h) := by
  unfold elements
  rw [bind_run_ok (listBegin_run s h), IsList.next_head hl]
  exact forward_run (List.isChain_cons.mp hl.chain).2 (List.nodup_cons.mp hl.nodup).2 hfuel

theorem elementsReverse_run (hl : h.IsList s xs) (hfuel : xs.length < fuel) :
    elementsReverse fuel s h = .ok (xs.reverse, h) := by
  have hc : h.Chain ((s.head :: xs) ++ [s.tail]) := hl.chain
  have hnd : ((s.head :: xs) ++ [s.tail]).Nodup := hl.nodup
  obtain ⟨hrest, -, hlast⟩ := List.isChain_append.mp hc
  have hprev : h.prev s.tail = (s.head :: xs).getLast? := by
    exact (hlast _ (List.getLast?_eq_some_getLast (List.cons_ne_nil _ _)) _ rfl).2
  unfold elementsReverse
  rw [bind_run_ok (listRbegin_run s h), hprev]
  exact backward_run hrest hnd.of_append_left hfuel

end Lists

/-! ### The functions on many lists -/

section Many

variable {ι : Type}

/-- A call of a function that changes lists; a list is named by its index. -/
inductive Op (ι ν : Type) where
  /-- `list_insert`. -/
  | insert (before elem : Option ν)
  /-- `list_splice`. -/
  | splice (before first last : Option ν)
  /-- `list_remove`. -/
  | remove (elem : Option ν)
  /-- `list_push_front`. -/
  | pushFront (i : ι) (elem : Option ν)
  /-- `list_push_back`. -/
  | pushBack (i : ι) (elem : Option ν)
  /-- `list_pop_front`. -/
  | popFront (i : ι)
  /-- `list_pop_back`. -/
  | popBack (i : ι)
  /-- `list_reverse`. -/
  | reverse (i : ι)

/-- Run a call, with what it returns. -/
def Op.run [DecidableEq ν] (s : ι → Sentinels ν) (fuel : ℕ) : Op ι ν → Elems ν (Option ν)
  | .insert before elem => do
    listInsert before elem
    return none
  | .splice before first last => do
    listSplice before first last
    return none
  | .remove elem => listRemove elem
  | .pushFront i elem => do
    listPushFront (s i) elem
    return none
  | .pushBack i elem => do
    listPushBack (s i) elem
    return none
  | .popFront i => listPopFront (s i)
  | .popBack i => listPopBack (s i)
  | .reverse i => do
    listReverse fuel (s i)
    return none

/-- What a call does to the sequences of the elements: what it returns, the sequences after it, and
the lists that it concerns. -/
inductive Effect [DecidableEq ι] (s : ι → Sentinels ν) (xs : ι → List ν) :
    Op ι ν → Option ν → (ι → List ν) → (ι → Prop) → Prop where
  | insert {i : ι} {c d : List ν} {b e : ν} (hx : xs i = c ++ d) (hb : (d ++ [(s i).tail]).head? = some b) :
    Effect s xs (.insert (some b) (some e)) none (update xs i (c ++ e :: d)) fun k => k = i
  /-- The stretch `r` goes from list `j` to list `i`, which may be the same. -/
  | splice {i j : ι} {c r d c' d' : List ν} {b : ν} (hx : xs j = c ++ (r ++ d))
    (hx' : update xs j (c ++ d) i = c' ++ d') (hb : (d' ++ [(s i).tail]).head? = some b) :
    Effect s xs (.splice (some b) (r ++ (d ++ [(s j).tail])).head? (d ++ [(s j).tail]).head?) none
      (update (update xs j (c ++ d)) i (c' ++ (r ++ d'))) fun k => k = i ∨ k = j
  | remove {i : ι} {c d : List ν} {e : ν} (hx : xs i = c ++ e :: d) :
    Effect s xs (.remove (some e)) (d ++ [(s i).tail]).head? (update xs i (c ++ d)) fun k => k = i
  | pushFront {i : ι} {e : ν} :
    Effect s xs (.pushFront i (some e)) none (update xs i (e :: xs i)) fun k => k = i
  | pushBack {i : ι} {e : ν} :
    Effect s xs (.pushBack i (some e)) none (update xs i (xs i ++ [e])) fun k => k = i
  | popFront {i : ι} {e : ν} {d : List ν} (hx : xs i = e :: d) :
    Effect s xs (.popFront i) (some e) (update xs i d) fun k => k = i
  | popBack {i : ι} {e : ν} {c : List ν} (hx : xs i = c ++ [e]) :
    Effect s xs (.popBack i) (some e) (update xs i c) fun k => k = i
  | reverse {i : ι} : Effect s xs (.reverse i) none (update xs i (xs i).reverse) fun k => k = i

/-- The element is on one of the lists, or is an end of it. -/
def On (s : ι → Sentinels ν) (xs : ι → List ν) (e : ν) : Prop := ∃ i, e ∈ (s i).nodes (xs i)

/-- The elements that a call is given are where it expects them: a place is on a list, a new element
is on none, and a stretch is one of a list and does not have the place in it. -/
def Op.Proper (s : ι → Sentinels ν) (xs : ι → List ν) : Op ι ν → Prop
  | .insert before elem => (∀ b, before = some b → On s xs b) ∧ ∀ e, elem = some e → ¬ On s xs e
  | .splice before first last => ∃ j c r d, xs j = c ++ (r ++ d) ∧ first = (r ++ (d ++ [(s j).tail])).head? ∧
      last = (d ++ [(s j).tail]).head? ∧ ∀ b, before = some b → On s xs b ∧ b ∉ r
  | .remove elem => ∀ e, elem = some e → On s xs e
  | .pushFront _ elem => ∀ e, elem = some e → ¬ On s xs e
  | .pushBack _ elem => ∀ e, elem = some e → ¬ On s xs e
  | .popFront _ => True
  | .popBack _ => True
  | .reverse _ => True

/-- What is to be true after a call that has returned `result` and left the links `h'`. -/
structure Correct [DecidableEq ν] [DecidableEq ι] (s : ι → Sentinels ν) (xs : ι → List ν) (h : Links ν) (op : Op ι ν)
    (result : Option ν) (h' : Links ν) (xs' : ι → List ν) (touched : ι → Prop) : Prop where
  /-- The call returns. -/
  returns : ∃ n, ∀ fuel, n ≤ fuel → op.run s fuel h = .ok (result, h')
  /-- The sequences are what they are to be. -/
  effect : Effect s xs op result xs' touched
  /-- They are the sequences of the lists, which have no element in common. -/
  lists : h'.IsLists s xs'
  /-- From front to back. -/
  forward : ∀ i, ∃ n, ∀ fuel, n ≤ fuel → elements fuel (s i) h' = .ok (xs' i, h')
  /-- And from back to front. -/
  backward : ∀ i, ∃ n, ∀ fuel, n ≤ fuel → elementsReverse fuel (s i) h' = .ok ((xs' i).reverse, h')
  /-- The other lists are not touched. -/
  others : ∀ i, ¬ touched i → xs' i = xs i ∧ SameAt h h' ((s i).nodes (xs i))

variable [DecidableEq ν] [DecidableEq ι] {s : ι → Sentinels ν} {xs : ι → List ν} {h : Links ν}
  {i : ι} {c d r : List ν} {b e : ν}

theorem Correct.of {op : Op ι ν} {result : Option ν} {h' : Links ν} {xs' : ι → List ν} {touched : ι → Prop} (n : ℕ)
    (hrun : ∀ fuel, n ≤ fuel → op.run s fuel h = .ok (result, h')) (heffect : Effect s xs op result xs' touched)
    (hlists : h'.IsLists s xs') (hothers : ∀ i, ¬ touched i → xs' i = xs i ∧ SameAt h h' ((s i).nodes (xs i))) :
    Correct s xs h op result h' xs' touched where
  returns := ⟨n, hrun⟩
  effect := heffect
  lists := hlists
  forward i := ⟨(xs' i).length + 1, fun _ hfuel => elements_run (hlists.list i) (Nat.lt_of_succ_le hfuel)⟩
  backward i := ⟨(xs' i).length + 1, fun _ hfuel => elementsReverse_run (hlists.list i) (Nat.lt_of_succ_le hfuel)⟩
  others := hothers

theorem Correct.of_update {op : Op ι ν} {result : Option ν} {h' : Links ν} {ys : List ν} (n : ℕ)
    (hrun : ∀ fuel, n ≤ fuel → op.run s fuel h = .ok (result, h'))
    (heffect : Effect s xs op result (update xs i ys) fun k => k = i)
    (hlists : h'.IsLists s (update xs i ys)) (hothers : ∀ j, j ≠ i → SameAt h h' ((s j).nodes (xs j))) :
    Correct s xs h op result h' (update xs i ys) fun k => k = i :=
  .of n hrun heffect hlists fun j hj => ⟨update_of_ne hj _ _, hothers j hj⟩

omit [DecidableEq ν] [DecidableEq ι] in
theorem exists_place {s : Sentinels ν} {xs : List ν} (hb : b ∈ s.nodes xs) (hne : b ≠ s.head) :
    ∃ c d, xs = c ++ d ∧ (d ++ [s.tail]).head? = some b := by
  rcases List.mem_append.mp ((List.mem_cons.mp hb).resolve_left hne) with hmem | hmem
  · obtain ⟨c, d, rfl⟩ := List.append_of_mem hmem
    exact ⟨c, b :: d, rfl, rfl⟩
  · rw [List.mem_singleton.mp hmem]
    exact ⟨xs, [], by simp, rfl⟩

omit [DecidableEq ν] [DecidableEq ι] in
theorem exists_neighbours (s : Sentinels ν) (c d : List ν) :
    ∃ u p q v, s.head :: c = u ++ [p] ∧ d ++ [s.tail] = q :: v := by
  refine ⟨(s.head :: c).dropLast, (s.head :: c).getLast (List.cons_ne_nil _ _), ?_⟩
  have hleft := (List.dropLast_append_getLast (List.cons_ne_nil s.head c)).symm
  cases d with
  | nil => exact ⟨s.tail, [], hleft, rfl⟩
  | cons y d => exact ⟨y, d ++ [s.tail], hleft, rfl⟩

/-- **`list_insert`.** -/
theorem insert_lists (hs : h.IsLists s xs) (hx : xs i = c ++ d) (hb : (d ++ [(s i).tail]).head? = some b)
    (he : ¬ On s xs e) :
    ∃ h', listInsert (some b) (some e) h = .ok ((), h') ∧ h'.IsLists s (update xs i (c ++ e :: d)) ∧
      ∀ j, j ≠ i → SameAt h h' ((s j).nodes (xs j)) := by
  obtain ⟨u, p, q, v, hleft, hright⟩ := exists_neighbours (s i) c d
  obtain rfl : q = b := by
    rw [hright] at hb
    exact Option.some.inj hb
  have hnodes : (s i).nodes (xs i) = u ++ p :: q :: v := by
    rw [hx]
    exact nodes_stretch hleft hright []
  have hne : e ≠ q := by
    rintro rfl
    exact he ⟨i, hnodes ▸ List.mem_append_right _ (List.mem_cons_of_mem _ List.mem_cons_self)⟩
  have hfree : ∀ j, List.Disjoint [e] ((s j).nodes (xs j)) := by
    intro j n hn hmem
    rw [List.mem_singleton.mp hn] at hmem
    exact he ⟨j, hmem⟩
  obtain ⟨hlists, hothers⟩ := hs.link hx (List.isChain_singleton e) (List.cons_ne_nil e []) (List.nodup_singleton e) hfree
    hleft hright
  exact ⟨_, listInsert_run (IsList.adjacent (hs.list i) hnodes).2 hne, hlists, hothers⟩

/-- **`list_remove`.** The element is on no list then, and its own links are as they were. -/
theorem remove_lists (hs : h.IsLists s xs) (hx : xs i = c ++ e :: d) :
    ∃ h', listRemove (some e) h = .ok ((d ++ [(s i).tail]).head?, h') ∧ h'.IsLists s (update xs i (c ++ d)) ∧
      (∀ j, j ≠ i → SameAt h h' ((s j).nodes (xs j))) ∧ ¬ On s (update xs i (c ++ d)) e ∧
      h'.next e = (d ++ [(s i).tail]).head? := by
  obtain ⟨u, p, q, v, hleft, hright⟩ := exists_neighbours (s i) c d
  have hnodes : (s i).nodes (xs i) = u ++ p :: ([e] ++ q :: v) := by
    rw [hx]
    exact nodes_stretch hleft hright [e]
  have hl := hs.list i
  have hp := (IsList.adjacent hl hnodes).2
  have hnodes' : (s i).nodes (xs i) = (u ++ [p]) ++ e :: q :: v := by
    rw [hnodes]
    simp
  have hq := (IsList.adjacent hl hnodes').1
  have hnd := hl.nodup
  rw [hnodes] at hnd
  have hpe : p ≠ e := by
    rintro rfl
    exact (List.nodup_cons.mp hnd.of_append_right).1 List.mem_cons_self
  obtain ⟨hlists, -, -, hfree, hothers⟩ := hs.cut hx (List.cons_ne_nil e []) hleft hright
  rw [hright, List.head?_cons]
  refine ⟨_, listRemove_run hp hq hpe, hlists, hothers, ?_, by rw [cut_next, if_neg hpe.symm, hq]⟩
  rintro ⟨j, hj⟩
  exact hfree j (List.mem_singleton_self e) hj

/-- **`list_splice`**, of a stretch that is not empty. -/
theorem splice_lists {j : ι} {c' d' : List ν} (hs : h.IsLists s xs) (hx : xs j = c ++ (r ++ d)) (hr : r ≠ [])
    (hx' : update xs j (c ++ d) i = c' ++ d') (hb : (d' ++ [(s i).tail]).head? = some b) (hbr : b ∉ r) :
    ∃ h', listSplice (some b) (r ++ (d ++ [(s j).tail])).head? (d ++ [(s j).tail]).head? h = .ok ((), h') ∧
      h'.IsLists s (update (update xs j (c ++ d)) i (c' ++ (r ++ d'))) ∧
      ∀ k, k ≠ i → k ≠ j → SameAt h h' ((s k).nodes (xs k)) := by
  obtain ⟨u, p, q, v, hleft, hright⟩ := exists_neighbours (s j) c d
  obtain ⟨u', pb, q', v', hleft', hright'⟩ := exists_neighbours (s i) c' d'
  obtain rfl : q' = b := by
    rw [hright'] at hb
    exact Option.some.inj hb
  have hl := hs.list j
  have hnodes : (s j).nodes (xs j) = u ++ p :: (r ++ q :: v) := by rw [hx, nodes_stretch hleft hright]
  have hchain := hl.chain
  have hnd := hl.nodup
  rw [hnodes] at hchain hnd
  obtain ⟨-, hpf, -, hzq, -⟩ := (chain_stretch hr).mp hchain
  have hmem : ∀ n ∈ r, n ∈ xs j := fun n hn => hx ▸ List.mem_append_right _ (List.mem_append_left _ hn)
  have hfirst := List.head_mem hr
  have hlast := List.getLast_mem hr
  have hnd' := List.nodup_cons.mp hnd.of_append_right
  have hrq : ∀ n ∈ r, n ≠ q := fun n hn => (List.nodup_append.mp hnd'.2).2.2 n hn q List.mem_cons_self
  have hzp : r.getLast hr ≠ p := fun he => hnd'.1 (List.mem_append_left _ (he ▸ hlast))
  -- the stretch is cut out of its list, and linked into the list of `before`
  obtain ⟨hlists, hstretch, hndr, hfree, hsame⟩ := hs.cut hx hr hleft hright
  have hplace : (s i).nodes (update xs j (c ++ d) i) = u' ++ pb :: q' :: v' := by
    rw [hx']
    exact nodes_stretch hleft' hright' []
  have hcut := (IsList.adjacent (hlists.list i) hplace).2
  have hbefore : h.prev q' ≠ none := by
    by_cases hq : q' = q
    · rw [hq, hzq.2]
      simp
    · rw [cut_prev, if_neg hq] at hcut
      rw [hcut]
      simp
  obtain ⟨hlists', hsame'⟩ := hlists.link hx' hstretch hr hndr hfree hleft' hright'
  refine ⟨_, ?_, hlists', fun k hki hkj n hn => ?_⟩
  · rw [hright, List.head?_append, List.head?_eq_some_head hr, List.head?_cons]
    exact listSplice_run hbefore (hrq _ hfirst) hzq.2 hpf.2 (IsList.next_ne_none hl (hmem _ hfirst)) hzq.1
      (IsList.prev_ne_none hl (hmem _ hlast)) hzp hcut (ne_of_mem_of_not_mem hfirst hbr)
  · obtain ⟨hn₁, hp₁⟩ := hsame k hkj n hn
    obtain ⟨hn₂, hp₂⟩ := hsame' k hki n (by rwa [update_of_ne hkj])
    exact ⟨hn₂.trans hn₁, hp₂.trans hp₁⟩

/-! ### The assertions -/

omit [DecidableEq ν] in
theorem assert_false_run (h : Links ν) : assert false h = .error .assertion := rfl

/-- The assertion on a place. -/
def isPlace (h : Links ν) (b : ν) : Bool :=
  (h.prev b).isSome && (h.next b).isSome || (h.prev b).isSome && (h.next b).isNone

omit [DecidableEq ν] [DecidableEq ι] in
theorem ne_head_of_isPlace {s : Sentinels ν} {xs : List ν} (hl : h.IsList s xs) (hb : isPlace h b = true) :
    b ≠ s.head := by
  rintro rfl
  rw [isPlace, hl.first] at hb
  cases hb

theorem listInsert_assert {before elem : Option ν} (hne : listInsert before elem h ≠ .error .assertion) :
    ∃ b e, before = some b ∧ elem = some e ∧ isPlace h b = true := by
  cases before with
  | none => exact absurd rfl hne
  | some b =>
    cases hb : isPlace h b with
    | false =>
      refine absurd ?_ hne
      unfold isPlace at hb
      unfold listInsert
      rw [bind_run_ok (isInterior_run b h), bind_run_ok (isTail_run b h), hb, bind_run_error (assert_false_run h)]
    | true =>
      cases elem with
      | none =>
        refine absurd ?_ hne
        unfold isPlace at hb
        unfold listInsert
        rw [bind_run_ok (isInterior_run b h), bind_run_ok (isTail_run b h), bind_run_ok (assert_run hb h)]
        rfl
      | some e => exact ⟨b, e, rfl, rfl, hb⟩

theorem listSplice_assert {before first last : Option ν} (hne : listSplice before first last h ≠ .error .assertion) :
    ∃ b, before = some b ∧ isPlace h b = true := by
  cases before with
  | none => exact absurd rfl hne
  | some b =>
    refine ⟨b, rfl, ?_⟩
    cases hb : isPlace h b with
    | true => rfl
    | false =>
      refine absurd ?_ hne
      unfold isPlace at hb
      unfold listSplice
      rw [bind_run_ok (isInterior_run b h), bind_run_ok (isTail_run b h), hb, bind_run_error (assert_false_run h)]

theorem listSplice_nil (hb : isPlace h b = true) (l : Option ν) : listSplice (some b) l l h = .ok ((), h) := by
  unfold isPlace at hb
  unfold listSplice
  rw [bind_run_ok (isInterior_run b h), bind_run_ok (isTail_run b h), bind_run_ok (assert_run hb h), if_pos rfl]
  rfl

theorem listRemove_assert {elem : Option ν} (hne : listRemove elem h ≠ .error .assertion) :
    ∃ e, elem = some e ∧ ∀ (s : Sentinels ν) (xs : List ν), h.IsList s xs → e ∈ s.nodes xs → e ∈ xs := by
  cases elem with
  | none => exact absurd rfl hne
  | some e =>
    refine ⟨e, rfl, fun s xs hl he => ?_⟩
    have hstop : ((h.prev e).isSome && (h.next e).isSome) = false → False := by
      intro hassert
      refine hne ?_
      unfold listRemove
      rw [bind_run_ok (isInterior_run e h), hassert, bind_run_error (assert_false_run h)]
    rcases List.mem_cons.mp he with rfl | he
    · exact (hstop (by rw [hl.first]; rfl)).elim
    · rcases List.mem_append.mp he with he | he
      · exact he
      · rw [List.mem_singleton.mp he, hl.last, Option.isSome_none, Bool.and_false] at hstop
        exact (hstop rfl).elim

theorem listEmpty_nil {s : Sentinels ν} {xs : List ν} (hl : h.IsList s xs) :
    listEmpty s h = .ok (decide (xs = []), h) := by
  have hnext := IsList.next_head hl
  obtain ⟨-, htail, -⟩ := IsList.parts hl
  rw [listEmpty_run, hnext]
  cases xs with
  | nil => simp
  | cons x xs =>
    have hne : x ≠ s.tail := ne_of_mem_of_not_mem List.mem_cons_self htail
    simp [hne]

theorem listFront_run {s : Sentinels ν} {xs : List ν} (hl : h.IsList s (e :: xs)) :
    listFront s h = .ok (some e, h) := by
  unfold listFront
  rw [bind_run_ok (listEmpty_nil hl), bind_run_ok (assert_run (by simp) h), read_next, IsList.next_head hl]
  rfl

theorem listBack_run {s : Sentinels ν} {xs : List ν} (hl : h.IsList s (xs ++ [e])) :
    listBack s h = .ok (some e, h) := by
  have hnodes : s.nodes (xs ++ [e]) = (s.head :: xs) ++ e :: s.tail :: [] := by simp [Sentinels.nodes]
  unfold listBack
  rw [bind_run_ok (listEmpty_nil hl), bind_run_ok (assert_run (by simp) h), read_prev, (IsList.adjacent hl hnodes).2]

section

variable {s : Sentinels ν} (hl : h.IsList s [])
include hl

theorem listFront_nil : listFront s h = .error .assertion := by
  unfold listFront
  rw [bind_run_ok (listEmpty_nil hl)]
  rfl

theorem listBack_nil : listBack s h = .error .assertion := by
  unfold listBack
  rw [bind_run_ok (listEmpty_nil hl)]
  rfl

theorem listReverse_nil : listReverse fuel s h = .ok ((), h) := by
  unfold listReverse
  rw [bind_run_ok (listEmpty_nil hl)]
  rfl

end

omit [DecidableEq ν] in
/-- A place outside a stretch stays when the stretch is cut out. -/
theorem mem_nodes_update {j : ι} (hx : xs j = c ++ (r ++ d)) (hb : b ∈ (s i).nodes (xs i)) (hbr : b ∉ r) :
    b ∈ (s i).nodes (update xs j (c ++ d) i) := by
  obtain rfl | hij := eq_or_ne i j
  · rw [hx] at hb
    rw [update_self]
    simp only [Sentinels.nodes, List.mem_cons, List.mem_append] at hb ⊢
    tauto
  · rwa [update_of_ne hij]

/-- **The functions of `list.c` do to lists what they are to do.** -/
theorem list_operations (h : Links ν) (s : ι → Sentinels ν) (xs : ι → List ν) (hs : h.IsLists s xs) (op : Op ι ν)
    (hop : op.Proper s xs) (hassert : ∀ fuel, op.run s fuel h ≠ .error .assertion) :
    ∃ result h' xs' touched, Correct s xs h op result h' xs' touched := by
  cases op with
  | insert before elem =>
    obtain ⟨b, e, rfl, rfl, hb⟩ := listInsert_assert fun herr => hassert 0 (bind_run_error herr)
    obtain ⟨hplace, hnew⟩ := hop
    obtain ⟨i, hi⟩ := hplace b rfl
    obtain ⟨c, d, hx, hd⟩ := exists_place hi (ne_head_of_isPlace (hs.list i) hb)
    obtain ⟨h', hrun, hlists, hothers⟩ := insert_lists hs hx hd (hnew e rfl)
    exact ⟨none, h', _, _, .of_update 0 (fun _ _ => bind_run_ok hrun) (.insert hx hd) hlists hothers⟩
  | splice before first last =>
    obtain ⟨b, rfl, hb⟩ := listSplice_assert fun herr => hassert 0 (bind_run_error herr)
    obtain ⟨j, c, r, d, hx, rfl, rfl, hplace⟩ := hop
    obtain ⟨⟨i, hi⟩, hbr⟩ := hplace b rfl
    obtain ⟨c', d', hx', hd⟩ := exists_place (mem_nodes_update hx hi hbr) (ne_head_of_isPlace (hs.list i) hb)
    by_cases hr : r = []
    · subst hr
      have hsame : update (update xs j (c ++ d)) i (c' ++ ([] ++ d')) = xs := by
        rw [List.nil_append, ← hx', update_eq_self, ← List.nil_append d, ← hx, update_eq_self]
      refine ⟨none, h, _, _, .of 0 (fun _ _ => bind_run_ok (listSplice_nil hb _)) (.splice hx hx' hd) ?_ fun k _ => ?_⟩
      · rwa [hsame]
      · rw [hsame]
        exact ⟨rfl, fun _ _ => ⟨rfl, rfl⟩⟩
    · obtain ⟨h', hrun, hlists, hothers⟩ := splice_lists hs hx hr hx' hd hbr
      refine ⟨none, h', _, _, .of 0 (fun _ _ => bind_run_ok hrun) (.splice hx hx' hd) hlists fun k hk => ?_⟩
      obtain ⟨hki, hkj⟩ := not_or.mp hk
      exact ⟨by rw [update_of_ne hki, update_of_ne hkj], hothers k hki hkj⟩
  | remove elem =>
    obtain ⟨e, rfl, hmem⟩ := listRemove_assert (hassert 0)
    obtain ⟨i, hi⟩ := hop e rfl
    obtain ⟨c, d, hx⟩ := List.append_of_mem (hmem _ _ (hs.list i) hi)
    obtain ⟨h', hrun, hlists, hothers, -⟩ := remove_lists hs hx
    exact ⟨_, h', _, _, .of_update 0 (fun _ _ => hrun) (.remove hx) hlists hothers⟩
  | pushFront i elem =>
    obtain ⟨b, hb⟩ := head_append_tail (s i) (xs i)
    have hrun : listPushFront (s i) elem h = listInsert (some b) elem h := by
      unfold listPushFront
      rw [bind_run_ok (listBegin_run (s i) h), IsList.next_head (hs.list i), hb]
    obtain ⟨-, e, -, rfl, -⟩ := listInsert_assert fun herr => hassert 0 (bind_run_error (hrun.trans herr))
    obtain ⟨h', hinsert, hlists, hothers⟩ := insert_lists (c := []) hs (List.nil_append _).symm hb (hop e rfl)
    exact ⟨none, h', _, _, .of_update 0 (fun _ _ => bind_run_ok (hrun.trans hinsert)) .pushFront hlists hothers⟩
  | pushBack i elem =>
    obtain ⟨-, e, -, rfl, -⟩ := listInsert_assert fun herr => hassert 0 (bind_run_error herr)
    obtain ⟨h', hinsert, hlists, hothers⟩ := insert_lists (d := []) hs (List.append_nil _).symm rfl (hop e rfl)
    exact ⟨none, h', _, _, .of_update 0 (fun _ _ => bind_run_ok hinsert) .pushBack hlists hothers⟩
  | popFront i =>
    have hl := hs.list i
    cases hx : xs i with
    | nil =>
      rw [hx] at hl
      exact absurd (bind_run_error (listFront_nil hl)) (hassert 0)
    | cons e d =>
      rw [hx] at hl
      obtain ⟨h', hremove, hlists, hothers, -⟩ := remove_lists (c := []) hs hx
      refine ⟨some e, h', _, _, .of_update 0 (fun _ _ => ?_) (.popFront hx) hlists hothers⟩
      exact (bind_run_ok (listFront_run hl)).trans (bind_run_ok hremove)
  | popBack i =>
    have hl := hs.list i
    rcases List.eq_nil_or_concat' (xs i) with hx | ⟨c, e, hx⟩
    · rw [hx] at hl
      exact absurd (bind_run_error (listBack_nil hl)) (hassert 0)
    · rw [hx] at hl
      obtain ⟨h', hremove, hlists, hothers, -⟩ := remove_lists (d := []) hs hx
      rw [List.append_nil] at hlists
      refine ⟨some e, h', _, _, .of_update 0 (fun _ _ => ?_) (.popBack hx) hlists hothers⟩
      exact (bind_run_ok (listBack_run hl)).trans (bind_run_ok hremove)
  | reverse i =>
    by_cases hx : xs i = []
    · have hl := hs.list i
      rw [hx] at hl
      have hsame : update xs i (xs i).reverse = xs := by
        rw [hx, List.reverse_nil, ← hx, update_eq_self]
      refine ⟨none, h, _, _, .of_update 0 (fun _ _ => bind_run_ok (listReverse_nil hl)) .reverse ?_ fun j _ => ?_⟩
      · rwa [hsame]
      · exact fun _ _ => ⟨rfl, rfl⟩
    · obtain ⟨hlists, hothers⟩ := hs.turn hx
      refine ⟨none, _, _, _, .of_update ((xs i).length + 1) (fun fuel hfuel => ?_) .reverse hlists hothers⟩
      exact bind_run_ok (listReverse_run (hs.list i) hx (Nat.lt_of_succ_le hfuel))

end Many

/-! ### Two lists of one element, and one element that is put on its list again -/

/-- The links of two lists of one element each. -/
def twoLists : Links (Fin 6) where
  next
    | 0 => some 4
    | 4 => some 1
    | 2 => some 5
    | 5 => some 3
    | _ => none
  prev
    | 1 => some 4
    | 4 => some 0
    | 3 => some 5
    | 5 => some 2
    | _ => none

/-- The ends of the two lists. -/
def twoEnds : Bool → Sentinels (Fin 6)
  | false => ⟨0, 1⟩
  | true => ⟨2, 3⟩

/-- The elements of the two lists. -/
def twoElems : Bool → List (Fin 6)
  | false => [4]
  | true => [5]

theorem twoLists_isLists : twoLists.IsLists twoEnds twoElems where
  list i := by
    cases i with
    | false | true => exact ⟨rfl, rfl, by simp [Chain, Sentinels.nodes, Adjacent, twoEnds, twoElems, twoLists], by decide⟩
  disjoint := by
    unfold List.Disjoint
    decide

/-- Element 4 goes from its list to the place before element 5. -/
theorem list_operations_splice :
    ∃ result h' xs' touched,
      Correct twoEnds twoElems twoLists (.splice (some 5) (some 4) (some 1)) result h' xs' touched := by
  refine list_operations _ _ _ twoLists_isLists _ ⟨false, [], [4], [], rfl, rfl, rfl, fun b hb => ?_⟩ fun _ herr => ?_
  · obtain rfl := Option.some.inj hb
    exact ⟨⟨true, by decide⟩, by decide⟩
  · cases herr

/-- **An element that is on a list already passes the assertions of `list_push_back`, and then its
list is none any more.** -/
theorem push_back_twice :
    ∃ h', twoLists.IsLists twoEnds twoElems ∧
      Op.run twoEnds 0 (.pushBack false (some 4)) twoLists = .ok (none, h') ∧ ∀ xs', ¬ h'.IsLists twoEnds xs' := by
  refine ⟨_, twoLists_isLists, rfl, fun xs' hlists => ?_⟩
  have hl := hlists.list false
  have hfirst := IsList.next_head hl
  -- the head is followed by 4, and 4 by itself
  cases hx : xs' false with
  | nil =>
    rw [hx] at hfirst
    exact absurd hfirst (by decide)
  | cons x l =>
    rw [hx] at hfirst hl
    obtain rfl : 4 = x := Option.some.inj hfirst
    obtain ⟨y, hy⟩ := head_append_tail (twoEnds false) l
    have hnext := ((List.isChain_cons.mp (List.isChain_cons.mp hl.chain).2).1 y hy).1
    obtain rfl : 4 = y := Option.some.inj hnext
    exact (List.nodup_cons.mp (List.nodup_cons.mp hl.nodup).2).1 (List.mem_of_mem_head? hy)

end Pintos.Lib.KernelList
