import Pintos.Basis.StableSort
import Pintos.Lib.KernelList

/-!
# Sorting of kernel lists (`lib/kernel/list.c`)

`list_sort` is a natural merge sort: it looks for two neighbouring runs, merges them by moving
single elements, and goes on behind them; when a pass has made more than one run, there is another.
`list_insert_ordered` looks for the first element that the new one is less than, and inserts the new
one before it.

## The model

The functions are on the links of the elements, as those of `Pintos.Lib.KernelList`, with the same
bound on the rounds of every loop. The comparison with its `aux` is a function of two elements. It
is called through pointers, and may be anything for what is not an element of the list.
`output_run_cnt` counts runs that are made of elements in memory, and does not overflow.

## What is proved

**`list_sort_stable`**: on a list with a strict weak order of its elements `list_sort` returns, no
assertion fails, and the list is the stable sort of what it was. **`list_sort_eq_insert_ordered`**:
it is the list that `list_insert_ordered` makes of the same elements, which is a stable sort too.
-/

namespace Pintos.Lib.KernelList

open Function Links Program Sorting

variable {ν : Type}

/-- A call of the comparison. -/
def callLess (less : ν → ν → Bool) (a b : Option ν) : Elems ν Bool :=
  match a, b with
  | some a, some b => return less a b
  | _, _ => throw .nullPointer

section Functions

variable [DecidableEq ν] (less : ν → ν → Bool)

/-- The loop of `is_sorted`. -/
def isSortedLoop (b : Option ν) : (fuel : ℕ) → (a : Option ν) → Elems ν Bool
  | 0, _ => throw .diverges
  | fuel + 1, a => do
    let a ← listNext a
    if a = b then return true
    else if ← callLess less a (← listPrev a) then return false
    else isSortedLoop b fuel a

/-- The elements from `a` up to `b` are sorted. -/
def isSorted (fuel : ℕ) (a b : Option ν) : Elems ν Bool :=
  if a = b then return true else isSortedLoop less b fuel a

/-- The loop of `find_end_of_run`. -/
def runLoop (b : Option ν) : (fuel : ℕ) → (a : Option ν) → Elems ν (Option ν)
  | 0, _ => throw .diverges
  | fuel + 1, a => do
    let a ← listNext a
    if a = b then return a
    else if ← callLess less a (← listPrev a) then return a
    else runLoop b fuel a

/-- The end of the sorted run that starts at `a`. -/
def findEndOfRun (fuel : ℕ) (a b : Option ν) : Elems ν (Option ν) := do
  assert (a != none)
  assert (b != none)
  assert (a != b)
  runLoop less b fuel a

/-- The loop of `inplace_merge`. -/
def mergeLoop (b1 : Option ν) : (fuel : ℕ) → (a0 a1b0 : Option ν) → Elems ν Unit
  | 0, _, _ => throw .diverges
  | fuel + 1, a0, a1b0 =>
    if a0 ≠ a1b0 ∧ a1b0 ≠ b1 then do
      if !(← callLess less a1b0 a0) then mergeLoop b1 fuel (← listNext a0) a1b0
      else
        let a1b0 ← listNext a1b0
        listSplice a0 (← listPrev a1b0) a1b0
        mergeLoop b1 fuel a0 a1b0
    else return ()

/-- Merge the runs from `a0` up to `a1b0` and from there up to `b1`. -/
def inplaceMerge (fuel : ℕ) (a0 a1b0 b1 : Option ν) : Elems ν Unit := do
  assert (a0 != none)
  assert (a1b0 != none)
  assert (b1 != none)
  assert (← isSorted less fuel a0 a1b0)
  assert (← isSorted less fuel a1b0 b1)
  mergeLoop less b1 fuel a0 a1b0

/-- The inner loop of `list_sort`, one pass over the list: the number of runs it has made. -/
def passLoop (list : Sentinels ν) (bound : ℕ) : (fuel : ℕ) → (a0 : Option ν) → (outputRunCnt : ℕ) → Elems ν ℕ
  | 0, _, _ => throw .diverges
  | fuel + 1, a0, outputRunCnt =>
    if a0 = listEnd list then return outputRunCnt
    else do
      let a1b0 ← findEndOfRun less bound a0 (listEnd list)
      if a1b0 = listEnd list then return outputRunCnt + 1
      else
        let b1 ← findEndOfRun less bound a1b0 (listEnd list)
        inplaceMerge less bound a0 a1b0 b1
        passLoop list bound fuel b1 (outputRunCnt + 1)

/-- The outer loop of `list_sort`. -/
def sortLoop (list : Sentinels ν) (bound : ℕ) : (fuel : ℕ) → Elems ν Unit
  | 0 => throw .diverges
  | fuel + 1 => do
    let outputRunCnt ← passLoop less list bound bound (← listBegin list) 0
    if outputRunCnt > 1 then sortLoop list bound fuel else return ()

/-- Sort the list, by merging its runs. -/
def listSort (fuel : ℕ) (list : Sentinels ν) : Elems ν Unit := do
  sortLoop less list fuel fuel
  assert (← isSorted less fuel (← listBegin list) (listEnd list))

/-- The loop of `list_insert_ordered`. -/
def orderedLoop (list : Sentinels ν) (elem : Option ν) : (fuel : ℕ) → (e : Option ν) → Elems ν (Option ν)
  | 0, _ => throw .diverges
  | fuel + 1, e =>
    if e = listEnd list then return e
    else do
      if ← callLess less elem e then return e
      else orderedLoop list elem fuel (← listNext e)

/-- Put `elem` at its place in a sorted list. -/
def listInsertOrdered (fuel : ℕ) (list : Sentinels ν) (elem : Option ν) : Elems ν Unit := do
  assert (elem != none)
  let e ← orderedLoop less list elem fuel (← listBegin list)
  listInsert e elem

/-- Append elements, one after the other. -/
def appendAll (list : Sentinels ν) : List ν → Elems ν Unit
  | [] => return ()
  | e :: es => do
    listPushBack list (some e)
    appendAll list es

/-- Insert elements with `list_insert_ordered`, one after the other. -/
def insertAll (fuel : ℕ) (list : Sentinels ν) : List ν → Elems ν Unit
  | [] => return ()
  | e :: es => do
    listInsertOrdered less fuel list (some e)
    insertAll fuel list es

end Functions

/-! ### Places -/

/-- The place before the elements `d` at the end of a list: a pointer to the first of them, or to
the tail. -/
def place (s : Sentinels ν) (d : List ν) : Option ν := (d ++ [s.tail]).head?

section Places

variable {h h' h'' : Links ν} {s : Sentinels ν} {c d r xs ys : List ν} {x y : ν}

@[simp] theorem place_cons (s : Sentinels ν) (x : ν) (d : List ν) : place s (x :: d) = some x := rfl

theorem exists_place_eq (s : Sentinels ν) (d : List ν) : ∃ b, place s d = some b := by
  cases d with
  | nil | cons x d => exact ⟨_, rfl⟩

section

variable (hl : h.IsList s (c ++ x :: d))
include hl

theorem adjacent_place : h.next x = place s d ∧ ∀ y, place s d = some y → h.prev y = some x := by
  obtain ⟨y, hy⟩ := exists_place_eq s d
  obtain ⟨v, hv⟩ : ∃ v, d ++ [s.tail] = y :: v := by
    cases d with
    | nil => exact ⟨[], by rw [← Option.some.inj hy]; rfl⟩
    | cons z d => exact ⟨d ++ [s.tail], by rw [← Option.some.inj hy]; rfl⟩
  have hnodes : s.nodes (c ++ x :: d) = (s.head :: c) ++ x :: y :: v := by simp [Sentinels.nodes, hv]
  have hadj := IsList.adjacent hl hnodes
  rw [hy]
  refine ⟨hadj.1, fun z hz => ?_⟩
  rw [← Option.some.inj hz]
  exact hadj.2

theorem listNext_place : listNext (some x) h = .ok (place s d, h) := by
  obtain ⟨y, hy⟩ := exists_place_eq s d
  rw [hy]
  exact listNext_run ((adjacent_place hl).1.trans hy)

theorem listPrev_place : listPrev (place s d) h = .ok (some x, h) := by
  obtain ⟨y, hy⟩ := exists_place_eq s d
  rw [hy]
  exact listPrev_run ((adjacent_place hl).2 y hy)

end

theorem listBegin_place (hl : h.IsList s xs) : listBegin s h = .ok (place s xs, h) := by
  rw [listBegin_run, IsList.next_head hl]
  rfl

theorem place_ne (hl : h.IsList s (c ++ (r ++ d))) (hr : r ≠ []) : place s (r ++ d) ≠ place s d := by
  cases r with
  | nil => exact absurd rfl hr
  | cons x r =>
    obtain ⟨-, htail, -, hnd⟩ := IsList.parts hl
    intro he
    cases d with
    | nil =>
      obtain rfl : x = s.tail := Option.some.inj he
      simp at htail
    | cons y d =>
      obtain rfl : x = y := Option.some.inj he
      have := (List.nodup_append.mp hnd).2.1
      simp at this

theorem ne_listEnd (hl : h.IsList s (c ++ x :: d)) : some x ≠ listEnd s := by
  have hl' : h.IsList s (c ++ (x :: d ++ [])) := by simpa using hl
  exact fun he => place_ne hl' (List.cons_ne_nil x d) he

theorem place_bne_none [DecidableEq ν] (s : Sentinels ν) (d : List ν) : (place s d != none) = true := by
  obtain ⟨b, hb⟩ := exists_place_eq s d
  rw [hb]
  rfl

end Places

/-! ### Runs of a list -/

section Runs

variable [DecidableEq ν] {less : ν → ν → Bool} {h : Links ν} {s : Sentinels ν} {c d r : List ν} {x y : ν}

omit [DecidableEq ν] in
theorem callLess_run (less : ν → ν → Bool) (a b : ν) (h : Links ν) :
    callLess less (some a) (some b) h = .ok (less a b, h) := rfl

omit [DecidableEq ν] in
theorem listPrev_cons (hl : h.IsList s (c ++ x :: y :: d)) : listPrev (some y) h = .ok (some x, h) := listPrev_place hl

variable {fuel : ℕ}

theorem isSortedLoop_run (hl : h.IsList s (c ++ x :: (r ++ d))) (hr : InOrder less (x :: r))
    (hfuel : r.length < fuel) : isSortedLoop less (place s d) fuel (some x) h = .ok (true, h) := by
  induction r generalizing c x fuel with
  | nil =>
    obtain _ | fuel := fuel
    · simp at hfuel
    rw [isSortedLoop, bind_run_ok (listNext_place hl), List.nil_append, if_pos rfl]
    rfl
  | cons y r ih =>
    obtain _ | fuel := fuel
    · omega
    have hl' : h.IsList s ((c ++ [x]) ++ (y :: r ++ d)) := by simpa using hl
    obtain ⟨hxy, hr'⟩ := List.isChain_cons_cons.mp hr
    have hless : less y x = false := le_iff.mp hxy
    rw [isSortedLoop, bind_run_ok (listNext_place hl), if_neg (place_ne hl' (List.cons_ne_nil y r)),
      List.cons_append, place_cons, bind_run_ok (listPrev_cons hl), bind_run_ok (callLess_run less y x h), hless,
      if_neg Bool.false_ne_true]
    exact ih hl' hr' (by simpa using hfuel)

theorem isSorted_run (hl : h.IsList s (c ++ (r ++ d))) (hr : InOrder less r) (hfuel : r.length < fuel) :
    isSorted less fuel (place s (r ++ d)) (place s d) h = .ok (true, h) := by
  cases r with
  | nil =>
    rw [isSorted, List.nil_append, if_pos rfl]
    rfl
  | cons x r =>
    rw [isSorted, if_neg (place_ne hl (List.cons_ne_nil x r)), List.cons_append, place_cons]
    exact isSortedLoop_run hl hr (by simp at hfuel; omega)

/-- A run ends before an element that is less than the last of the run. -/
def EndsRun (less : ν → ν → Bool) (x : ν) (d : List ν) : Prop := ∀ y ∈ d.head?, less y x = true

theorem runLoop_run (hl : h.IsList s (c ++ x :: (r ++ d))) (hr : InOrder less (x :: r))
    (hend : EndsRun less ((x :: r).getLast (List.cons_ne_nil x r)) d) (hfuel : r.length < fuel) :
    runLoop less (listEnd s) fuel (some x) h = .ok (place s d, h) := by
  induction r generalizing c x fuel with
  | nil =>
    obtain _ | fuel := fuel
    · simp at hfuel
    rw [runLoop, bind_run_ok (listNext_place hl), List.nil_append]
    cases d with
    | nil =>
      rw [if_pos (show place s [] = listEnd s from rfl)]
      rfl
    | cons y d =>
      have hl' : h.IsList s ((c ++ [x]) ++ y :: d) := by simpa using hl
      have hless : less y x = true := hend y rfl
      rw [place_cons, if_neg (ne_listEnd hl'), bind_run_ok (listPrev_cons hl), bind_run_ok (callLess_run less y x h),
        hless, if_pos rfl]
      rfl
  | cons y r ih =>
    obtain _ | fuel := fuel
    · omega
    have hl' : h.IsList s ((c ++ [x]) ++ y :: (r ++ d)) := by simpa using hl
    obtain ⟨hxy, hr'⟩ := List.isChain_cons_cons.mp hr
    have hless : less y x = false := le_iff.mp hxy
    rw [runLoop, bind_run_ok (listNext_place hl), List.cons_append, place_cons, if_neg (ne_listEnd hl'),
      bind_run_ok (listPrev_cons hl), bind_run_ok (callLess_run less y x h), hless, if_neg Bool.false_ne_true]
    exact ih hl' hr' (by rwa [List.getLast_cons_cons] at hend) (by simpa using hfuel)

/-- **`find_end_of_run` finds the end of a run.** -/
theorem findEndOfRun_run (hl : h.IsList s (c ++ (r ++ d))) (hr : r ≠ []) (hord : InOrder less r)
    (hend : EndsRun less (r.getLast hr) d) (hfuel : r.length ≤ fuel) :
    findEndOfRun less fuel (place s (r ++ d)) (listEnd s) h = .ok (place s d, h) := by
  cases r with
  | nil => exact absurd rfl hr
  | cons x r =>
    have hne : (some x != listEnd s) = true := bne_iff_ne.mpr (ne_listEnd hl)
    have hend' : (listEnd s != none) = true := place_bne_none s []
    rw [findEndOfRun, List.cons_append, bind_run_ok (assert_run (place_bne_none s _) h),
      bind_run_ok (assert_run hend' h), place_cons, bind_run_ok (assert_run hne h)]
    exact runLoop_run hl hord hend hfuel

end Runs

/-! ### Merging -/

section Merging

variable {ι : Type} [DecidableEq ι]

/-- List `i` has the elements `ys` now, and the other lists are as they were. -/
structure Replaced (s : ι → Sentinels ν) (xs : ι → List ν) (i : ι) (ys : List ν) (h h' : Links ν) : Prop where
  lists : h'.IsLists s (update xs i ys)
  /-- The links of the others. -/
  others : ∀ j, j ≠ i → SameAt h h' ((s j).nodes (xs j))

variable {less : ν → ν → Bool} {h h' h'' : Links ν} {s : ι → Sentinels ν} {xs : ι → List ν} {i : ι} {c d ys zs A B : List ν}

theorem Replaced.list (hr : Replaced s xs i ys h h') : h'.IsList (s i) ys := by
  have hl := hr.lists.list i
  rwa [update_self] at hl

theorem Replaced.refl (hs : h.IsLists s xs) (hx : xs i = ys) : Replaced s xs i ys h h := by
  refine ⟨?_, fun _ _ _ _ => ⟨rfl, rfl⟩⟩
  rwa [← hx, update_eq_self]

theorem Replaced.trans (hr : Replaced s xs i ys h h') (hr' : Replaced s (update xs i ys) i zs h' h'') :
    Replaced s xs i zs h h'' := by
  refine ⟨by simpa using hr'.lists, fun j hj n hn => ?_⟩
  obtain ⟨hn₁, hp₁⟩ := hr.others j hj n hn
  obtain ⟨hn₂, hp₂⟩ := hr'.others j hj n (by rwa [update_of_ne hj])
  exact ⟨hn₂.trans hn₁, hp₂.trans hp₁⟩

variable [DecidableEq ν]

theorem splice_one {a b : ν} (hs : h.IsLists s xs) (hx : xs i = c ++ (a :: A ++ (b :: d))) :
    ∃ h', listSplice (some a) (some b) (place (s i) d) h = .ok ((), h') ∧
      Replaced s xs i (c ++ (b :: (a :: A ++ d))) h h' := by
  have hx' : xs i = (c ++ a :: A) ++ ([b] ++ d) := by
    rw [hx]
    simp
  have hcut : update xs i ((c ++ a :: A) ++ d) i = c ++ (a :: A ++ d) := by
    rw [update_self, List.append_assoc]
  have hne : a ∉ [b] := by
    obtain ⟨-, -, -, hnd⟩ := IsList.parts (hs.list i)
    rw [hx] at hnd
    have hnd' := (List.nodup_append.mp hnd).2.1
    simp only [List.cons_append, List.nodup_cons, List.mem_append, List.mem_cons] at hnd'
    rw [List.mem_singleton]
    tauto
  obtain ⟨h', hrun, hlists, hothers⟩ := splice_lists hs hx' (List.cons_ne_nil b []) hcut rfl hne
  refine ⟨h', hrun, ?_, fun j hj => hothers j hj hj⟩
  rwa [update_idem] at hlists

/-- **The loop of `inplace_merge` merges.** -/
theorem mergeLoop_run (less : ν → ν → Bool) (hs : h.IsLists s xs) (hx : xs i = c ++ (A ++ (B ++ d)))
    (hfuel : A.length + B.length < fuel) :
    ∃ h', mergeLoop less (place (s i) d) fuel (place (s i) (A ++ (B ++ d))) (place (s i) (B ++ d)) h = .ok ((), h') ∧
      Replaced s xs i (c ++ (A.merge B (le less) ++ d)) h h' := by
  induction fuel generalizing h xs c A B with
  | zero => omega
  | succ fuel ih =>
    have hl := hs.list i
    rw [hx] at hl
    cases A with
    | nil =>
      refine ⟨h, ?_, .refl hs (by rw [hx, List.nil_merge, List.nil_append])⟩
      rw [mergeLoop, List.nil_append, if_neg fun hne => hne.1 rfl]
      rfl
    | cons a A =>
      cases B with
      | nil =>
        refine ⟨h, ?_, .refl hs (by rw [hx, List.merge_right, List.nil_append])⟩
        rw [mergeLoop, List.nil_append, if_neg fun hne => hne.2 rfl]
        rfl
      | cons b B =>
        have hlb : h.IsList (s i) ((c ++ a :: A) ++ (b :: B ++ d)) := by simpa using hl
        have hne := place_ne hl (List.cons_ne_nil a A)
        have hne' := place_ne hlb (List.cons_ne_nil b B)
        rw [mergeLoop, if_pos ⟨hne, hne'⟩, List.cons_append, List.cons_append, place_cons, place_cons,
          bind_run_ok (callLess_run less b a h)]
        by_cases hba : less b a = true
        · -- the element of the second list is less, and goes before the first
          obtain ⟨h₁, hsplice, hrep⟩ := splice_one hs hx
          have hx₁ : update xs i (c ++ (b :: (a :: A ++ (B ++ d)))) i = (c ++ [b]) ++ (a :: A ++ (B ++ d)) := by
            rw [update_self]
            simp
          obtain ⟨h₂, hrun, hrep'⟩ := ih hrep.lists hx₁ (by simp only [List.length_cons] at hfuel ⊢; omega)
          refine ⟨h₂, ?_, ?_⟩
          · rw [hba, if_neg (by simp), bind_run_ok (listNext_place hlb), bind_run_ok (listPrev_place hlb),
              bind_run_ok hsplice]
            exact hrun
          · rw [List.cons_merge_cons, if_neg (by simp [le, hba])]
            have := hrep.trans hrep'
            simpa using this
        · obtain ⟨h₁, hrun, hrep⟩ := ih (c := c ++ [a]) (A := A) (B := b :: B) hs (by rw [hx]; simp)
            (by simp only [List.length_cons] at hfuel ⊢; omega)
          refine ⟨h₁, ?_, ?_⟩
          · rw [eq_false_of_ne_true hba, if_pos (by rfl), bind_run_ok (listNext_place hl)]
            exact hrun
          · rw [List.cons_merge_cons, if_pos (by simp [le, hba])]
            simpa using hrep

/-- **`inplace_merge`**, of two stretches that are in order. -/
theorem inplaceMerge_run (hs : h.IsLists s xs) (hx : xs i = c ++ (A ++ (B ++ d))) (hA : InOrder less A)
    (hB : InOrder less B) (hfuel : A.length + B.length < fuel) :
    ∃ h', inplaceMerge less fuel (place (s i) (A ++ (B ++ d))) (place (s i) (B ++ d)) (place (s i) d) h = .ok ((), h') ∧
      Replaced s xs i (c ++ (A.merge B (le less) ++ d)) h h' := by
  obtain ⟨h', hrun, hrep⟩ := mergeLoop_run less hs hx hfuel
  refine ⟨h', ?_, hrep⟩
  have hl := hs.list i
  rw [hx] at hl
  have hlb : h.IsList (s i) ((c ++ A) ++ (B ++ d)) := by simpa using hl
  rw [inplaceMerge, bind_run_ok (assert_run (place_bne_none _ _) h), bind_run_ok (assert_run (place_bne_none _ _) h),
    bind_run_ok (assert_run (place_bne_none _ _) h), bind_run_ok (isSorted_run hl hA (by omega)),
    bind_run_ok (assert_run rfl h), bind_run_ok (isSorted_run hlb hB (by omega)), bind_run_ok (assert_run rfl h)]
  exact hrun

end Merging

/-! ### `list_sort` -/

section Passes

variable {ι : Type} [DecidableEq ι] [DecidableEq ν] {less : ν → ν → Bool} {h : Links ν} {s : ι → Sentinels ν}
  {xs : ι → List ν} {i : ι} {c : List ν} {rs : List (List ν)} {bound : ℕ}

omit [DecidableEq ι] in
theorem findEndOfRun_runs {A : List ν} (rs : List (List ν)) (hl : h.IsList (s i) (c ++ (A ++ rs.flatten)))
    (hruns : runs less (A ++ rs.flatten) = A :: rs) (hbound : (c ++ (A ++ rs.flatten)).length < bound) :
    place (s i) (A ++ rs.flatten) ≠ listEnd (s i) ∧
      findEndOfRun less bound (place (s i) (A ++ rs.flatten)) (listEnd (s i)) h = .ok (place (s i) rs.flatten, h) := by
  obtain ⟨hA, hord, hend, -⟩ := runs_eq_cons hruns
  have hlen : A.length ≤ bound := by
    simp only [List.length_append] at hbound
    omega
  refine ⟨?_, findEndOfRun_run hl hA hord hend hlen⟩
  cases A with
  | nil => exact absurd rfl hA
  | cons a A => exact ne_listEnd hl

/-- **One pass merges the runs in pairs.** -/
theorem passLoop_run {cnt : ℕ} (hs : h.IsLists s xs) (hx : xs i = c ++ rs.flatten) (hruns : runs less rs.flatten = rs)
    (hbound : (xs i).length < bound) (hfuel : rs.length < fuel) :
    ∃ h', passLoop less (s i) bound fuel (place (s i) rs.flatten) cnt h =
        .ok (cnt + (mergePairs less rs).length, h') ∧
      Replaced s xs i (c ++ (mergePairs less rs).flatten) h h' := by
  induction rs using mergePairs.induct generalizing h xs c fuel cnt with
  | case1 =>
    obtain _ | fuel := fuel
    · simp at hfuel
    refine ⟨h, ?_, .refl hs hx⟩
    rw [passLoop, if_pos (by rfl)]
    rfl
  | case2 A =>
    obtain _ | fuel := fuel
    · simp at hfuel
    refine ⟨h, ?_, .refl hs hx⟩
    have hl := hs.list i
    rw [hx] at hl hbound
    obtain ⟨hne, hfind⟩ := findEndOfRun_runs [] hl hruns hbound
    rw [passLoop, List.flatten_cons, if_neg hne, bind_run_ok hfind, if_pos (by rfl)]
    rfl
  | case3 A B rs ih =>
    obtain _ | fuel := fuel
    · simp at hfuel
    have hl := hs.list i
    rw [hx] at hl hbound
    obtain ⟨-, hordA, -, hrunsB⟩ := runs_eq_cons hruns
    obtain ⟨-, hordB, -, hrest⟩ := runs_eq_cons hrunsB
    have hx' : xs i = c ++ (A ++ (B ++ rs.flatten)) := hx
    have hlB : h.IsList (s i) ((c ++ A) ++ (B ++ rs.flatten)) := by simpa using hl
    have hboundB : ((c ++ A) ++ (B ++ rs.flatten)).length < bound := by simpa using hbound
    obtain ⟨hne, hfind⟩ := findEndOfRun_runs (B :: rs) hl hruns hbound
    obtain ⟨hneB, hfindB⟩ := findEndOfRun_runs rs hlB hrunsB hboundB
    have hlen : A.length + B.length < bound := by
      simp only [List.length_append] at hboundB
      omega
    obtain ⟨h₁, hmerge, hrep⟩ := inplaceMerge_run hs hx' hordA hordB hlen
    -- the rest of the pass, behind the two runs that are merged
    have hx₁ : update xs i (c ++ (A.merge B (le less) ++ rs.flatten)) i = (c ++ A.merge B (le less)) ++ rs.flatten := by
      rw [update_self, List.append_assoc]
    have hbound₁ : (update xs i (c ++ (A.merge B (le less) ++ rs.flatten)) i).length < bound := by
      rw [hx₁]
      simpa [Nat.add_assoc] using hboundB
    have hfuel₁ : rs.length < fuel := by
      simp only [List.length_cons] at hfuel
      omega
    obtain ⟨h₂, hrun, hrep'⟩ := @ih h₁ _ _ fuel (cnt + 1) hrep.lists hx₁ hrest hbound₁ hfuel₁
    refine ⟨h₂, ?_, ?_⟩
    · rw [passLoop, List.flatten_cons, if_neg hne, bind_run_ok hfind, List.flatten_cons, if_neg hneB, bind_run_ok hfindB,
        bind_run_ok hmerge, hrun, mergePairs, List.length_cons, Nat.add_right_comm, Nat.add_assoc]
    · have hboth := hrep.trans hrep'
      rwa [List.append_assoc] at hboth

variable {S : Set ν} (hS : StrictWeakOn less S)
include hS

/-- **The passes end, and leave the stable sort of the list**: each pass that makes more than one
run leaves fewer runs. -/
theorem sortLoop_run (hs : h.IsLists s xs) (hmem : ∀ x ∈ xs i, x ∈ S) (hbound : (xs i).length < bound)
    (hfuel : (runs less (xs i)).length < fuel) :
    ∃ h' ys, sortLoop less (s i) bound fuel h = .ok ((), h') ∧ Replaced s xs i ys h h' ∧ IsStableSort less (xs i) ys := by
  induction fuel generalizing h xs with
  | zero => omega
  | succ fuel ih =>
    have hflat := flatten_runs less (xs i)
    have hruns : runs less (runs less (xs i)).flatten = runs less (xs i) := by rw [hflat]
    have hrunsBound : (runs less (xs i)).length < bound := (length_runs_le less (xs i)).trans_lt hbound
    obtain ⟨h₁, hpass, hrep⟩ :=
      @passLoop_run _ _ _ _ less h s xs i [] _ bound bound 0 hs hflat.symm hruns hbound hrunsBound
    have hsorted : ∀ A ∈ runs less (xs i), (∀ x ∈ A, x ∈ S) ∧ Sorted less A := fun A hA => sorted_of_mem_runs hS hmem hA
    have hmade := sorted_of_mem_mergePairs hS hsorted
    have horder := SameOrder.mergePairs hS hsorted
    rw [List.nil_append] at hrep
    rw [hflat] at horder hpass
    rw [Nat.zero_add] at hpass
    generalize hls : mergePairs less (runs less (xs i)) = ls at hpass hrep hmade horder
    rw [sortLoop, bind_run_ok (listBegin_place (hs.list i)), bind_run_ok hpass]
    by_cases hone : ls.length > 1
    · have hx₁ : update xs i ls.flatten i = ls.flatten := update_self _ _ _
      have hfewer : (runs less ls.flatten).length ≤ ls.length := length_runs_flatten_le fun A hA => (hmade A hA).inOrder
      have hlt : ls.length < (runs less (xs i)).length := by
        rw [← hls] at hone ⊢
        exact length_mergePairs_lt hone
      obtain ⟨h₂, ys, hrun, hrep', hsort⟩ := ih hrep.lists
        (by rw [hx₁]; exact fun x hx => hmem x (horder.perm.mem_iff.mp hx))
        (by rw [hx₁, horder.perm.length_eq]; exact hbound)
        (by rw [hx₁]; omega)
      rw [hx₁] at hsort
      refine ⟨h₂, ys, ?_, hrep.trans hrep', horder.trans hsort.toSameOrder, hsort.sorted⟩
      rw [if_pos hone]
      exact hrun
    · refine ⟨h₁, ls.flatten, ?_, hrep, horder, Sorted.flatten hmade (by omega)⟩
      rw [if_neg hone]
      rfl

/-- **`list_sort` returns, no assertion fails, and the list is the stable sort of what it was.** -/
theorem listSort_run (hs : h.IsLists s xs) (hmem : ∀ x ∈ xs i, x ∈ S) (hfuel : (xs i).length < fuel) :
    ∃ h' ys, listSort less fuel (s i) h = .ok ((), h') ∧ Replaced s xs i ys h h' ∧ IsStableSort less (xs i) ys := by
  obtain ⟨h', ys, hrun, hrep, hsort⟩ := sortLoop_run hS hs hmem hfuel ((length_runs_le less (xs i)).trans_lt hfuel)
  refine ⟨h', ys, ?_, hrep, hsort⟩
  have hl : h'.IsList (s i) ([] ++ (ys ++ [])) := by simpa using hrep.list
  have hcheck := isSorted_run hl hsort.sorted.inOrder (by rwa [hsort.perm.length_eq])
  rw [List.append_nil] at hcheck
  rw [listSort, bind_run_ok hrun, bind_run_ok (listBegin_place hrep.list)]
  exact (bind_run_ok hcheck).trans (assert_run rfl h')

end Passes

/-! ### `list_insert_ordered` -/

section Insert

variable {ι : Type} [DecidableEq ι] [DecidableEq ν] {less : ν → ν → Bool} {h : Links ν} {s : ι → Sentinels ν}
  {xs : ι → List ν} {i : ι} {e : ν} {es : List ν}

omit [DecidableEq ι] in
theorem orderedLoop_run (less : ν → ν → Bool) (e : ν) {c d : List ν} (hl : h.IsList (s i) (c ++ d))
    (hfuel : d.length < fuel) :
    ∃ t d', d = t ++ d' ∧ d.merge [e] (le less) = t ++ e :: d' ∧
      orderedLoop less (s i) (some e) fuel (place (s i) d) h = .ok (place (s i) d', h) := by
  induction d generalizing c fuel with
  | nil =>
    obtain _ | fuel := fuel
    · simp at hfuel
    refine ⟨[], [], rfl, List.nil_merge [e], ?_⟩
    rw [orderedLoop, if_pos (by rfl)]
    rfl
  | cons x d ih =>
    obtain _ | fuel := fuel
    · omega
    by_cases hex : less e x = true
    · refine ⟨[], x :: d, rfl, ?_, ?_⟩
      · rw [List.cons_merge_cons, if_neg (by simp [le, hex]), List.merge_right, List.nil_append]
      · rw [orderedLoop, place_cons, if_neg (ne_listEnd hl), bind_run_ok (callLess_run less e x h), if_pos hex]
        rfl
    · have hl' : h.IsList (s i) ((c ++ [x]) ++ d) := by simpa using hl
      obtain ⟨t, d', rfl, hmerge, hrun⟩ := ih hl' (Nat.lt_of_succ_lt_succ hfuel)
      refine ⟨x :: t, d', rfl, ?_, ?_⟩
      · rw [List.cons_merge_cons, if_pos (by simp [le, hex]), hmerge, List.cons_append]
      · rw [orderedLoop, place_cons, if_neg (ne_listEnd hl), bind_run_ok (callLess_run less e x h), if_neg hex,
          bind_run_ok (listNext_place hl)]
        exact hrun

/-- **`list_insert_ordered` puts an element behind those that it is not less than.** -/
theorem listInsertOrdered_run (less : ν → ν → Bool) (hs : h.IsLists s xs) (he : ¬ On s xs e)
    (hfuel : (xs i).length < fuel) :
    ∃ h', listInsertOrdered less fuel (s i) (some e) h = .ok ((), h') ∧
      Replaced s xs i ((xs i).merge [e] (le less)) h h' := by
  have hl : h.IsList (s i) ([] ++ xs i) := hs.list i
  obtain ⟨t, d, hx, hmerge, hloop⟩ := orderedLoop_run less e hl hfuel
  obtain ⟨b, hb⟩ := exists_place_eq (s i) d
  obtain ⟨h', hinsert, hlists, hothers⟩ := insert_lists hs hx hb he
  have hsome : (some e != none) = true := rfl
  refine ⟨h', ?_, ?_, hothers⟩
  · rw [listInsertOrdered, bind_run_ok (assert_run hsome h),
      bind_run_ok (listBegin_place (hs.list i)), bind_run_ok hloop, hb]
    exact hinsert
  · rwa [hmerge]

omit [DecidableEq ν] in
/-- An element that is new stays new when another one is put on a list. -/
theorem not_on_update {e' : ν} {ys : List ν} (hne : e' ≠ e) (he' : ¬ On s xs e') (hys : ys.Perm (xs i ++ [e])) :
    ¬ On s (update xs i ys) e' := by
  rintro ⟨j, hj⟩
  obtain rfl | hij := eq_or_ne j i
  · rw [update_self, Sentinels.nodes, List.mem_cons, List.mem_append, hys.mem_iff, List.mem_append] at hj
    apply he'
    refine ⟨j, ?_⟩
    rw [Sentinels.nodes, List.mem_cons, List.mem_append]
    have hmem : e' ∉ [e] := fun hmem => hne (List.mem_singleton.mp hmem)
    tauto
  · rw [update_of_ne hij] at hj
    exact he' ⟨j, hj⟩

/-- **Elements that are appended.** -/
theorem appendAll_run (hs : h.IsLists s xs) (hnd : es.Nodup) (hnew : ∀ e ∈ es, ¬ On s xs e) :
    ∃ h', appendAll (s i) es h = .ok ((), h') ∧ Replaced s xs i (xs i ++ es) h h' := by
  induction es generalizing h xs with
  | nil => exact ⟨h, rfl, .refl hs (List.append_nil _).symm⟩
  | cons e es ih =>
    obtain ⟨he, hnd⟩ := List.nodup_cons.mp hnd
    obtain ⟨h₁, hinsert, hlists, hothers⟩ := insert_lists (b := (s i).tail) hs
      (List.append_nil _).symm rfl (hnew e List.mem_cons_self)
    have hnew' : ∀ e' ∈ es, ¬ On s (update xs i (xs i ++ [e])) e' := by
      intro e' he'
      exact not_on_update (ne_of_mem_of_not_mem he' he) (hnew e' (List.mem_cons_of_mem e he')) (List.Perm.refl _)
    obtain ⟨h₂, hrun, hrep⟩ := ih hlists hnd hnew'
    refine ⟨h₂, (bind_run_ok hinsert).trans hrun, ?_⟩
    have hboth := Replaced.trans ⟨hlists, hothers⟩ hrep
    rwa [update_self, List.append_assoc] at hboth

/-- **Elements that are inserted in order**: the list is the stable sort of all of them. -/
theorem insertAll_run {S : Set ν} (hS : StrictWeakOn less S) {p : List ν} (hs : h.IsLists s xs) (hp : ∀ x ∈ p, x ∈ S)
    (hsort : IsStableSort less p (xs i)) (hes : ∀ x ∈ es, x ∈ S) (hnd : es.Nodup) (hnew : ∀ e ∈ es, ¬ On s xs e)
    (hfuel : p.length + es.length < fuel) :
    ∃ h' ys, insertAll less fuel (s i) es h = .ok ((), h') ∧ Replaced s xs i ys h h' ∧ IsStableSort less (p ++ es) ys := by
  induction es generalizing h xs p with
  | nil =>
    refine ⟨h, xs i, rfl, .refl hs rfl, ?_⟩
    rwa [List.append_nil]
  | cons e es ih =>
    obtain ⟨he, hnd⟩ := List.nodup_cons.mp hnd
    have heS := hes e List.mem_cons_self
    have hlen : (xs i).length < fuel := by
      rw [hsort.perm.length_eq]
      omega
    obtain ⟨h₁, hinsert, hrep⟩ := listInsertOrdered_run less hs (hnew e List.mem_cons_self) hlen
    have hnew' : ∀ e' ∈ es, ¬ On s (update xs i ((xs i).merge [e] (le less))) e' := by
      intro e' he'
      exact not_on_update (ne_of_mem_of_not_mem he' he) (hnew e' (List.mem_cons_of_mem e he'))
        (List.merge_perm_append (le less))
    have hpe : ∀ x ∈ p ++ [e], x ∈ S := fun x hx =>
      (List.mem_append.mp hx).elim (hp x) fun hx => List.mem_singleton.mp hx ▸ heS
    have hsort' := IsStableSort.insert hS hp heS hsort
    rw [← update_self i ((xs i).merge [e] (le less)) xs] at hsort'
    obtain ⟨h₂, ys, hrun, hrep', hall⟩ := ih hrep.lists hpe hsort' (fun x hx => hes x (List.mem_cons_of_mem e hx)) hnd hnew'
      (by simp only [List.length_append, List.length_cons, List.length_nil] at hfuel ⊢; omega)
    refine ⟨h₂, ys, (bind_run_ok hinsert).trans hrun, hrep.trans hrep', ?_⟩
    rwa [List.append_assoc] at hall

end Insert

/-! ### The two ways to sort -/

section Results

variable {ι : Type} [DecidableEq ι] [DecidableEq ν]

/-- **`list_sort` sorts stably**: on every list, and with every strict weak order of its elements,
it returns, and no assertion fails. The list then has its former elements, sorted, and elements that
are tied are in their former order. The other lists are not touched. -/
theorem list_sort_stable (h : Links ν) (s : ι → Sentinels ν) (xs : ι → List ν) (hs : h.IsLists s xs) (i : ι)
    (less : ν → ν → Bool) (hless : StrictWeakOn less {x | x ∈ xs i}) :
    ∃ ys, IsStableSort less (xs i) ys ∧
      ∃ n, ∀ fuel, n ≤ fuel → ∃ h', listSort less fuel (s i) h = .ok ((), h') ∧ Replaced s xs i ys h h' := by
  obtain ⟨-, ys, -, -, hsort⟩ := listSort_run (i := i) hless hs (fun _ hx => hx) (Nat.lt_succ_self _)
  refine ⟨ys, hsort, (xs i).length + 1, fun fuel hfuel => ?_⟩
  obtain ⟨h', zs, hrun, hrep, hsort'⟩ := listSort_run hless hs (fun _ hx => hx) (Nat.lt_of_succ_le hfuel)
  rw [hsort.unique hless (fun _ hx => hx) hsort']
  exact ⟨h', hrun, hrep⟩

/-- **`list_sort` and `list_insert_ordered` agree**: a list of elements that are appended and then
sorted is the list that they are inserted into in order one after the other, tied elements
included. -/
theorem list_sort_eq_insert_ordered (h : Links ν) (s : ι → Sentinels ν) (xs : ι → List ν) (hs : h.IsLists s xs) (i : ι)
    (hempty : xs i = []) (es : List ν) (hnd : es.Nodup) (hnew : ∀ e ∈ es, ¬ On s xs e) (less : ν → ν → Bool)
    (hless : StrictWeakOn less {x | x ∈ es}) :
    ∃ ys n, ∀ fuel, n ≤ fuel →
      (∃ h', (do appendAll (s i) es; listSort less fuel (s i)) h = .ok ((), h') ∧ h'.IsList (s i) ys) ∧
        ∃ h', insertAll less fuel (s i) es h = .ok ((), h') ∧ h'.IsList (s i) ys := by
  have hmem : ∀ x ∈ es, x ∈ {x | x ∈ es} := fun _ hx => hx
  have hnil : IsStableSort less [] (xs i) := by
    rw [hempty]
    exact ⟨.refl [], List.Pairwise.nil⟩
  have hinsert : ∀ fuel, es.length < fuel → ∃ h' ys, insertAll less fuel (s i) es h = .ok ((), h') ∧
      Replaced s xs i ys h h' ∧ IsStableSort less es ys := fun fuel hfuel =>
    insertAll_run hless hs (fun x hx => absurd hx List.not_mem_nil) hnil hmem hnd hnew (by simpa using hfuel)
  obtain ⟨h₁, happend, hrep⟩ := appendAll_run (i := i) hs hnd hnew
  rw [hempty, List.nil_append] at hrep
  have hx : update xs i es i = es := update_self _ _ _
  obtain ⟨-, ys, -, -, hsort⟩ := hinsert (es.length + 1) (Nat.lt_succ_self _)
  -- both lists are the stable sort of the elements
  refine ⟨ys, es.length + 1, fun fuel hfuel => ⟨?_, ?_⟩⟩
  · obtain ⟨h₂, zs, hrun, hrep', hsort'⟩ :=
      listSort_run hless hrep.lists (by rw [hx]; exact hmem) (by rw [hx]; exact Nat.lt_of_succ_le hfuel)
    rw [hx] at hsort'
    rw [hsort.unique hless hmem hsort']
    exact ⟨h₂, (bind_run_ok happend).trans hrun, hrep'.list⟩
  · obtain ⟨h₂, zs, hrun, hrep', hsort'⟩ := hinsert fuel (Nat.lt_of_succ_le hfuel)
    rw [hsort.unique hless hmem hsort']
    exact ⟨h₂, hrun, hrep'.list⟩

end Results

/-! ### Four elements with two keys -/

/-- A list of the elements 2, 3, 4 and 5. -/
def fourElems : Links ℕ where
  next
    | 0 => some 2
    | 2 => some 3
    | 3 => some 4
    | 4 => some 5
    | 5 => some 1
    | _ => none
  prev
    | 1 => some 5
    | 5 => some 4
    | 4 => some 3
    | 3 => some 2
    | 2 => some 0
    | _ => none

theorem fourElems_isLists : fourElems.IsLists (fun _ : Unit => ⟨0, 1⟩) fun _ => [2, 3, 4, 5] where
  list _ := ⟨rfl, rfl, by simp [Chain, Sentinels.nodes, Adjacent, fourElems], by decide⟩
  disjoint i j hij := absurd (Subsingleton.elim i j) hij

/-- Odd elements come before even ones. -/
def oddFirst (a b : ℕ) : Bool := decide (b % 2 < a % 2)

theorem oddFirst_strictWeakOn (S : Set ℕ) : StrictWeakOn oddFirst S where
  irrefl a _ := by simp [oddFirst]
  trans a _ b _ c _ hab hbc := by
    simp only [oddFirst, decide_eq_true_eq] at *
    omega
  incomp a _ b _ c _ hab hba hbc hcb := by
    simp only [oddFirst, decide_eq_false_iff_not] at *
    omega

theorem oddFirst_isStableSort : IsStableSort oddFirst [2, 3, 4, 5] [3, 5, 2, 4] where
  perm := by decide
  ties := by decide
  sorted := by
    unfold Sorted
    decide

/-- The odd elements are moved to the front, and stay in their order. -/
theorem list_sort_stable_four : ∃ n, ∀ fuel, n ≤ fuel →
    ∃ h', listSort oddFirst fuel ⟨0, 1⟩ fourElems = .ok ((), h') ∧ h'.IsList ⟨0, 1⟩ [3, 5, 2, 4] := by
  obtain ⟨ys, hsort, n, hrun⟩ := list_sort_stable _ _ _ fourElems_isLists () oddFirst (oddFirst_strictWeakOn _)
  obtain rfl := hsort.unique (oddFirst_strictWeakOn Set.univ) (fun _ _ => trivial) oddFirst_isStableSort
  refine ⟨n, fun fuel hfuel => ?_⟩
  obtain ⟨h', hrun, hrep⟩ := hrun fuel hfuel
  exact ⟨h', hrun, hrep.list⟩

/-- An empty list. -/
def noElems : Links ℕ where
  next n := if n = 0 then some 1 else none
  prev n := if n = 1 then some 0 else none

theorem noElems_isLists : noElems.IsLists (fun _ : Unit => ⟨0, 1⟩) fun _ => [] where
  list _ := ⟨rfl, rfl, by simp [Chain, Sentinels.nodes, Adjacent, noElems], by decide⟩
  disjoint i j hij := absurd (Subsingleton.elim i j) hij

/-- The same elements, appended and sorted, and inserted in order. -/
theorem list_sort_eq_insert_ordered_four : ∃ ys n, ∀ fuel, n ≤ fuel →
    (∃ h', (do appendAll ⟨0, 1⟩ [2, 3, 4, 5]; listSort oddFirst fuel ⟨0, 1⟩) noElems = .ok ((), h') ∧ h'.IsList ⟨0, 1⟩ ys) ∧
      ∃ h', insertAll oddFirst fuel ⟨0, 1⟩ [2, 3, 4, 5] noElems = .ok ((), h') ∧ h'.IsList ⟨0, 1⟩ ys := by
  refine list_sort_eq_insert_ordered _ _ _ noElems_isLists () rfl _ (by decide) ?_ oddFirst (oddFirst_strictWeakOn _)
  rintro e he ⟨⟨⟩, hmem⟩
  revert e
  decide

end Pintos.Lib.KernelList
