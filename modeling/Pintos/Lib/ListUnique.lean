import Pintos.Lib.ListSort

/-!
# Duplicates in kernel lists (`lib/kernel/list.c`)

`list_unique` goes through a list with a pointer to the last element that stays. The next element is
taken off the list and appended to another list if the two are tied, and otherwise the pointer goes
on to it.

## The model

The links and the comparison are those of `Pintos.Lib.ListSort`. `duplicates` is `none` for `NULL`.

## What is proved

**`list_unique_firsts`**: of a sorted list the first element of each class of tied elements stays,
and the others go to the end of the other list in their order.
-/

namespace Pintos.Lib.KernelList

open Function Links Program Sorting

variable {ν : Type} [DecidableEq ν] (less : ν → ν → Bool)

/-- The test of `list_unique`: the second comparison is made only if the first fails. -/
def callTied (a b : Option ν) : Elems ν Bool := do
  if ← callLess less a b then return false
  else return !(← callLess less b a)

/-- The loop of `list_unique`. -/
def uniqueLoop (list : Sentinels ν) (duplicates : Option (Sentinels ν)) : (fuel : ℕ) → (elem : Option ν) → Elems ν Unit
  | 0, _ => throw .diverges
  | fuel + 1, elem => do
    let next ← listNext elem
    if next = listEnd list then return ()
    else if ← callTied less elem next then
      let _ ← listRemove next
      if let some duplicates := duplicates then listPushBack duplicates next
      uniqueLoop list duplicates fuel elem
    else uniqueLoop list duplicates fuel next

/-- Take out the elements equal to the one before them. -/
def listUnique (fuel : ℕ) (list : Sentinels ν) (duplicates : Option (Sentinels ν)) : Elems ν Unit := do
  if ← listEmpty list then return ()
  else uniqueLoop less list duplicates fuel (← listBegin list)

/-- What the loop leaves behind the element `x`, and what it takes off. -/
def separate (x : ν) : List ν → List ν × List ν
  | [] => ([], [])
  | y :: d => if tied less x y then ((separate x d).1, y :: (separate x d).2) else (y :: (separate y d).1, (separate y d).2)

/-- The first element of its class in a list. -/
def isFirst (xs : List ν) (x : ν) : Bool := (xs.takeWhile (· ≠ x)).all fun y => !tied less y x

variable {less} {ι : Type} [DecidableEq ι] {h : Links ν} {s : ι → Sentinels ν} {xs : ι → List ν} {i j : ι} {x y : ν}
  {c d p : List ν}

omit [DecidableEq ν] in
theorem callTied_run (a b : ν) (h : Links ν) : callTied less (some a) (some b) h = .ok (tied less a b, h) := by
  rw [callTied, bind_run_ok (callLess_run less a b h)]
  cases hab : less a b with
  | true | false => simp [tied, le, hab]; rfl

/-- **The loop separates the list behind its element.** -/
theorem uniqueLoop_run (less : ν → ν → Bool) {fuel : ℕ} (hij : i ≠ j) (hs : h.IsLists s xs)
    (hx : xs i = c ++ x :: d) (hfuel : d.length < fuel) :
    ∃ h', uniqueLoop less (s i) (some (s j)) fuel (some x) h = .ok ((), h') ∧
      h'.IsLists s (update (update xs i (c ++ x :: (separate less x d).1)) j (xs j ++ (separate less x d).2)) := by
  induction d generalizing h xs c x fuel with
  | nil =>
    obtain _ | fuel := fuel
    · simp at hfuel
    have hl := hs.list i
    rw [hx] at hl
    refine ⟨h, ?_, ?_⟩
    · rw [uniqueLoop, bind_run_ok (listNext_place hl), if_pos (show place (s i) [] = listEnd (s i) from rfl)]
      rfl
    · rwa [separate, ← hx, update_eq_self, List.append_nil, update_eq_self]
  | cons y d ih =>
    obtain _ | fuel := fuel
    · omega
    have hfuel' : d.length < fuel := Nat.lt_of_succ_lt_succ hfuel
    have hx' : xs i = (c ++ [x]) ++ y :: d := by simp [hx]
    have hl := hs.list i
    have hl' := hs.list i
    rw [hx] at hl
    rw [hx'] at hl'
    rw [uniqueLoop, bind_run_ok (listNext_place hl), place_cons, if_neg (ne_listEnd hl'), bind_run_ok (callTied_run x y h)]
    cases htied : tied less x y with
    | false =>
      obtain ⟨h', hrun, hlists⟩ := ih hs hx' hfuel'
      refine ⟨h', hrun, ?_⟩
      simpa [separate, htied] using hlists
    | true =>
      -- the next element goes to the other list, and the pointer stays
      obtain ⟨h₁, hremove, hlists₁, -, hfree, -⟩ := remove_lists hs hx'
      obtain ⟨h₂, hpush, hlists₂, -⟩ := insert_lists (i := j) (d := []) hlists₁ (List.append_nil _).symm rfl hfree
      rw [update_of_ne hij.symm] at hlists₂
      obtain ⟨h', hrun, hlists⟩ := ih hlists₂ (c := c) (x := x) (by simp [update_of_ne hij]) hfuel'
      refine ⟨h', (bind_run_ok hremove).trans ((bind_run_ok hpush).trans hrun), ?_⟩
      simpa [separate, htied, update_comm hij] using hlists

/-- Behind the elements `p`, none of which comes after `x`, the loop takes off what is not the first
of its class. -/
theorem separate_eq {S : Set ν} (hS : StrictWeakOn less S) (hp : ∀ q ∈ p, q ∈ S ∧ less x q = false) (hx : x ∈ p)
    (hd : ∀ y ∈ d, y ∈ S) (hsorted : Sorted less (x :: d)) (hnd : (p ++ d).Nodup) :
    separate less x d = (d.filter (isFirst less (p ++ d)), d.filter fun y => !isFirst less (p ++ d) y) := by
  induction d generalizing p x with
  | nil => rfl
  | cons y d ih =>
    obtain ⟨hle, hsorted'⟩ := List.pairwise_cons.mp hsorted
    obtain ⟨hyS, hd'⟩ := List.forall_mem_cons.mp hd
    have hyp : y ∉ p := fun hy => (List.nodup_append.mp hnd).2.2 y hy y List.mem_cons_self rfl
    have htake : (p ++ y :: d).takeWhile (· ≠ y) = p := by
      rw [List.takeWhile_append_of_pos fun q hq => by simpa using ne_of_mem_of_not_mem hq hyp]
      simp
    have hassoc : p ++ y :: d = (p ++ [y]) ++ d := by simp
    have hnd' : ((p ++ [y]) ++ d).Nodup := hassoc ▸ hnd
    cases hxy : less x y with
    | false =>
      have htied : tied less x y = true := tied_iff.mpr ⟨le_iff.mp (hle y List.mem_cons_self), hxy⟩
      have hfirst : isFirst less (p ++ y :: d) y = false := by
        rw [isFirst, htake, List.all_eq_false]
        exact ⟨x, hx, by simp [htied]⟩
      have hrest := ih (p := p ++ [y]) (x := x) (by simpa [or_imp, forall_and, hyS, hxy] using hp) (by simp [hx]) hd'
        (hsorted.sublist (by simp)) hnd'
      simp [separate, htied, hrest, hfirst]
    | true =>
      have hbelow : ∀ q ∈ p, less q y = true := by
        intro q hq
        by_contra hqy
        have hyx := hS.le_trans hyS (hp q hq).1 (hp x hx).1 (eq_false_of_ne_true hqy) (hp q hq).2
        rw [hxy] at hyx
        cases hyx
      have hfirst : isFirst less (p ++ y :: d) y = true := by
        rw [isFirst, htake, List.all_eq_true]
        intro q hq
        simp [tied, le, hbelow q hq]
      have hp' : ∀ q ∈ p ++ [y], q ∈ S ∧ less y q = false := by
        intro q hq
        rcases List.mem_append.mp hq with hq | hq
        · exact ⟨(hp q hq).1, hS.asymm (hp q hq).1 hyS (hbelow q hq)⟩
        · rw [List.mem_singleton.mp hq]
          exact ⟨hyS, hS.irrefl y hyS⟩
      have hrest := ih (p := p ++ [y]) (x := y) hp' (by simp) hd' hsorted' hnd'
      simp [separate, tied, le, hxy, hrest, hfirst]

/-- What stands before an element in a list without repetition. -/
theorem mem_takeWhile_ne {l : List ν} (hnd : l.Nodup) (hxy : [x, y].Sublist l) : x ∈ l.takeWhile (· ≠ y) := by
  induction l with
  | nil => cases hxy
  | cons a l ih =>
    obtain ⟨ha, hnd⟩ := List.nodup_cons.mp hnd
    cases hxy with
    | cons _ hxy =>
      have hay : a ≠ y := fun he => ha (he ▸ hxy.subset (by simp))
      rw [List.takeWhile_cons_of_pos (by simpa using hay)]
      exact List.mem_cons_of_mem a (ih hnd hxy)
    | cons_cons _ hy =>
      have hxy : x ≠ y := fun he => ha (he ▸ hy.subset (by simp))
      simp [hxy]

/-- **`list_unique` keeps the first element of each class**: on every sorted list, with another list
for the duplicates, it returns. The list then has the elements that no element before them is tied
with, in their order, and of those no two are tied. The others are behind the former elements of the
other list, in their order too. -/
theorem list_unique_firsts (h : Links ν) (s : ι → Sentinels ν) (xs : ι → List ν)
    (hs : h.IsLists s xs) (i j : ι) (hij : i ≠ j)
    (less : ν → ν → Bool) (hless : StrictWeakOn less {x | x ∈ xs i}) (hsorted : InOrder less (xs i)) :
    ∃ kept removed, kept = (xs i).filter (isFirst less (xs i)) ∧ removed = (xs i).filter (fun x => !isFirst less (xs i) x) ∧
      (kept ++ removed).Perm (xs i) ∧ kept.Pairwise (fun x y => tied less x y = false) ∧
      ∃ n, ∀ fuel, n ≤ fuel → ∃ h', listUnique less fuel (s i) (some (s j)) h = .ok ((), h') ∧
        h'.IsLists s (update (update xs i kept) j (xs j ++ removed)) := by
  have hl := hs.list i
  obtain ⟨-, -, -, hnd⟩ := IsList.parts hl
  refine ⟨_, _, rfl, rfl, List.filter_append_perm _ _, ?_, (xs i).length + 1, fun fuel hfuel => ?_⟩
  · refine List.pairwise_iff_forall_sublist.mpr fun {x y} hxy => ?_
    have hfirst : isFirst less (xs i) y = true := (List.mem_filter.mp (hxy.subset (by simp))).2
    simpa using List.all_eq_true.mp hfirst x (mem_takeWhile_ne hnd (hxy.trans List.filter_sublist))
  · rw [listUnique, bind_run_ok (listEmpty_nil hl)]
    cases hx : xs i with
    | nil =>
      have hsame : update (update xs i []) j (xs j ++ []) = xs := by
        rw [List.append_nil, ← hx, update_eq_self, update_eq_self]
      exact ⟨h, rfl, hsame.symm ▸ hs⟩
    | cons x d =>
      rw [hx] at hl hless hsorted hnd hfuel
      have hxS : x ∈ {y | y ∈ x :: d} := List.mem_cons_self
      have hp : ∀ q ∈ [x], q ∈ {y | y ∈ x :: d} ∧ less x q = false := by
        intro q hq
        rw [List.mem_singleton.mp hq]
        exact ⟨hxS, hless.irrefl x hxS⟩
      have hsep := separate_eq hless hp (List.mem_singleton_self x) (fun y hy => List.mem_cons_of_mem x hy)
        (hsorted.sorted hless fun _ => id) hnd
      obtain ⟨h', hrun, hlists⟩ := uniqueLoop_run (c := []) less hij hs hx (Nat.lt_of_succ_le (Nat.le_of_succ_le hfuel))
      refine ⟨h', ?_, ?_⟩
      · rw [if_neg (by simp), bind_run_ok (listBegin_place hl)]
        exact hrun
      · have hfirst : isFirst less (x :: d) x = true := by simp [isFirst]
        simpa [hsep, hfirst] using hlists

/-- The links of a list of the elements 3, 5 and 4, and of an empty one. -/
def threeElems : Links ℕ where
  next
    | 0 => some 3
    | 3 => some 5
    | 5 => some 4
    | 4 => some 1
    | 6 => some 7
    | _ => none
  prev
    | 1 => some 4
    | 4 => some 5
    | 5 => some 3
    | 3 => some 0
    | 7 => some 6
    | _ => none

/-- The ends of the two lists. -/
def threeEnds (i : Bool) : Sentinels ℕ := if i then ⟨6, 7⟩ else ⟨0, 1⟩

theorem threeElems_isLists : threeElems.IsLists threeEnds fun i => if i then [] else [3, 5, 4] where
  list i := by
    cases i with
    | false | true => exact ⟨rfl, rfl, by simp [Chain, Sentinels.nodes, Adjacent, threeEnds, threeElems], by decide⟩
  disjoint := by
    unfold List.Disjoint
    decide

/-- The odd elements are tied: 3 stays, and 5 goes to the other list. -/
theorem list_unique_firsts_three : ∃ n, ∀ fuel, n ≤ fuel → ∃ h',
    listUnique oddFirst fuel ⟨0, 1⟩ (some ⟨6, 7⟩) threeElems = .ok ((), h') ∧
      h'.IsList ⟨0, 1⟩ [3, 4] ∧ h'.IsList ⟨6, 7⟩ [5] := by
  obtain ⟨_, _, rfl, rfl, -, -, n, hrun⟩ := list_unique_firsts _ _ _ threeElems_isLists false true (by decide) oddFirst
    (oddFirst_strictWeakOn _) (by unfold InOrder; decide)
  refine ⟨n, fun fuel hfuel => ?_⟩
  obtain ⟨h', hret, hlists⟩ := hrun fuel hfuel
  exact ⟨h', hret, hlists.list false, hlists.list true⟩

end Pintos.Lib.KernelList
