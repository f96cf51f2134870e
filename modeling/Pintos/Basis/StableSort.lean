import Mathlib.Data.List.Perm.Basic
import Mathlib.Data.List.SplitBy

/-!
# Stable sorting by merging runs

A list is sorted by a comparison `less`, which is a strict weak order: elements that it does not
tell apart are tied. A stable sort keeps the order of tied elements, and there is one stable sort of
a list only (`IsStableSort.unique`). So algorithms that sort stably give the same list, whatever
they are.

The merge of two sorted lists that takes the element of the first list on a tie is the library's
`List.merge`. It keeps the order of the tied elements of the one list followed by the other
(`SameOrder.merge`). To insert an element behind those that it is tied with is to merge with a list
of one element.

A natural merge sort cuts the list into its runs, the longest stretches that are in order, and
merges them in pairs. That is one pass; the passes are repeated until one list is left. Each pass
halves the runs (`length_mergePairs`), and there are no more runs after it than it made
(`length_runs_flatten_le`), so that the number of runs bounds the passes.
-/

namespace Pintos.Sorting

variable {α : Type} {less : α → α → Bool} {S : Set α} {a b c : α} {l l' l'' A B : List α}

/-- A comparison is a strict weak order on the elements of `S`. -/
structure StrictWeakOn (less : α → α → Bool) (S : Set α) : Prop where
  /-- No element is less than itself. -/
  irrefl : ∀ a ∈ S, less a a = false
  /-- Being less is transitive. -/
  trans : ∀ a ∈ S, ∀ b ∈ S, ∀ c ∈ S, less a b = true → less b c = true → less a c = true
  /-- And so is being neither less nor greater. -/
  incomp : ∀ a ∈ S, ∀ b ∈ S, ∀ c ∈ S, less a b = false → less b a = false → less b c = false → less c b = false →
    less a c = false ∧ less c a = false

/-- `a` may stand before `b`. -/
def le (less : α → α → Bool) (a b : α) : Bool := !less b a

theorem le_iff : le less a b = true ↔ less b a = false := by simp [le]

theorem le_eq_false : le less a b = false ↔ less b a = true := by simp [le]

namespace StrictWeakOn

variable (h : StrictWeakOn less S)
include h

section

variable (ha : a ∈ S) (hb : b ∈ S)
include ha hb

theorem asymm (hab : less a b = true) : less b a = false := by
  by_contra hba
  have haa := h.trans a ha b hb a ha hab (eq_true_of_ne_false hba)
  rw [h.irrefl a ha] at haa
  cases haa

/-- What may stand before something that may stand before a third may stand before the third. -/
theorem le_trans (hc : c ∈ S) (hab : less b a = false) (hbc : less c b = false) :
    less c a = false := by
  by_contra hca
  have hca := eq_true_of_ne_false hca
  -- if one of the two were strict, it would contradict the other with `c` less than `a`
  have hab' : less a b = false := by
    by_contra hab'
    have hcb := h.trans c hc a ha b hb hca (eq_true_of_ne_false hab')
    rw [hbc] at hcb
    cases hcb
  have hbc' : less b c = false := by
    by_contra hbc'
    have hba := h.trans b hb c hc a ha (eq_true_of_ne_false hbc') hca
    rw [hab] at hba
    cases hba
  have hboth := h.incomp a ha b hb c hc hab' hab hbc' hbc
  rw [hboth.2] at hca
  cases hca

theorem le_of_less (hab : less a b = true) : le less a b = true :=
  le_iff.mpr (h.asymm ha hb hab)

/-- What is less than something that may stand before a third is less than the third. -/
theorem less_of_less_of_le (hc : c ∈ S) (hab : less a b = true) (hbc : less c b = false) :
    less a c = true := by
  by_contra hac
  have hab' := h.le_trans hb hc ha hbc (eq_false_of_ne_true hac)
  rw [hab] at hab'
  cases hab'

end

end StrictWeakOn

/-! ### Sorted lists -/

/-- The list is sorted: no element is less than one before it. -/
def Sorted (less : α → α → Bool) (l : List α) : Prop := l.Pairwise fun a b => le less a b = true

/-- Each element may stand before the next one. -/
def InOrder (less : α → α → Bool) (l : List α) : Prop := l.IsChain fun a b => le less a b = true

theorem Sorted.inOrder (h : Sorted less l) : InOrder less l := List.Pairwise.isChain h

theorem InOrder.sorted (hS : StrictWeakOn less S) (hl : ∀ x ∈ l, x ∈ S) (h : InOrder less l) : Sorted less l := by
  induction l with
  | nil => exact List.Pairwise.nil
  | cons a l ih =>
    have hsorted : Sorted less l := ih (fun x hx => hl x (List.mem_cons_of_mem a hx)) h.tail
    refine List.Pairwise.cons (fun x hx => ?_) hsorted
    cases l with
    | nil => cases hx
    | cons b l =>
      have hab : le less a b = true := (List.isChain_cons_cons.mp h).1
      obtain rfl | hx := List.mem_cons.mp hx
      · exact hab
      · have hbx : le less b x = true := (List.pairwise_cons.mp hsorted).1 x hx
        rw [le_iff] at hab hbx ⊢
        exact hS.le_trans (hl a (by simp)) (hl b (by simp)) (hl x (by simp [hx])) hab hbx

/-! ### The order of tied elements -/

/-- Neither of the two is less than the other. -/
def tied (less : α → α → Bool) (a b : α) : Bool := le less a b && le less b a

theorem tied_iff : tied less a b = true ↔ less b a = false ∧ less a b = false := by
  simp [tied, le]

/-- `l'` has the elements of `l`, and tied elements in the order they have in `l`. -/
structure SameOrder (less : α → α → Bool) (l l' : List α) : Prop where
  /-- The elements are the same. -/
  perm : l'.Perm l
  /-- Those that are tied with an element are in the same order. -/
  ties : ∀ a ∈ l, l'.filter (tied less a) = l.filter (tied less a)

/-- `l'` is `l`, sorted, with tied elements in the order they have in `l`. -/
structure IsStableSort (less : α → α → Bool) (l l' : List α) : Prop extends SameOrder less l l' where
  sorted : Sorted less l'

namespace SameOrder

theorem refl (l : List α) : SameOrder less l l := ⟨List.Perm.refl l, fun _ _ => rfl⟩

theorem trans (h : SameOrder less l l') (h' : SameOrder less l' l'') : SameOrder less l l'' where
  perm := h'.perm.trans h.perm
  ties a ha := (h'.ties a (h.perm.mem_iff.mpr ha)).trans (h.ties a ha)

end SameOrder

section Weak

variable (hS : StrictWeakOn less S)
include hS

theorem tied_self (ha : a ∈ S) : tied less a a = true := tied_iff.mpr ⟨hS.irrefl a ha, hS.irrefl a ha⟩

variable {x : α}

section

variable (ha : a ∈ S) (hb : b ∈ S) (hx : x ∈ S)
include ha hb hx

/-- What is tied with an element is not tied with those that the element is less than. -/
theorem tied_eq_false (hab : less a b = true)
    (hxa : tied less x a = true) : tied less x b = false := by
  rw [Bool.eq_false_iff]
  intro hxb
  have hab' := hS.le_trans hb hx ha (tied_iff.mp hxb).2 (tied_iff.mp hxa).1
  rw [hab] at hab'
  cases hab'

theorem tied_of_tied (hab : tied less a b = true)
    (hax : tied less a x = true) : tied less b x = true := by
  obtain ⟨hba, hab⟩ := tied_iff.mp hab
  obtain ⟨hxa, hax⟩ := tied_iff.mp hax
  exact tied_iff.mpr ⟨hS.le_trans hb ha hx hab hxa, hS.le_trans hx ha hb hax hba⟩

theorem tied_congr (hab : tied less a b = true) :
    tied less a x = tied less b x := by
  have hba : tied less b a = true := by rwa [tied, Bool.and_comm]
  rw [Bool.eq_iff_iff]
  exact ⟨tied_of_tied hS ha hb hx hab, tied_of_tied hS hb ha hx hba⟩

end

namespace SameOrder

/-- The elements that are tied with something else are in the same order too. -/
theorem ties_of_mem (h : SameOrder less l l') (hl : ∀ x ∈ l, x ∈ S) (ha : a ∈ S) :
    l'.filter (tied less a) = l.filter (tied less a) := by
  by_cases hex : ∃ c ∈ l, tied less a c = true
  · obtain ⟨c, hc, hac⟩ := hex
    have hsame : ∀ x ∈ l, tied less a x = tied less c x := fun x hx => tied_congr hS ha (hl c hc) (hl x hx) hac
    calc l'.filter (tied less a) = l'.filter (tied less c) :=
          List.filter_congr fun x hx => hsame x (h.perm.mem_iff.mp hx)
      _ = l.filter (tied less c) := h.ties c hc
      _ = l.filter (tied less a) := List.filter_congr fun x hx => (hsame x hx).symm
  · have hnone : ∀ x ∈ l, ¬ tied less a x = true := fun x hx hax => hex ⟨x, hx, hax⟩
    rw [List.filter_eq_nil_iff.mpr hnone, List.filter_eq_nil_iff.mpr fun x hx => hnone x (h.perm.mem_iff.mp hx)]

theorem append {m m' : List α} (h : SameOrder less l l') (h' : SameOrder less m m') (hl : ∀ x ∈ l, x ∈ S)
    (hm : ∀ x ∈ m, x ∈ S) : SameOrder less (l ++ m) (l' ++ m') where
  perm := h.perm.append h'.perm
  ties a ha := by
    have haS : a ∈ S := (List.mem_append.mp ha).elim (hl a) (hm a)
    rw [List.filter_append, List.filter_append, h.ties_of_mem hS hl haS, h'.ties_of_mem hS hm haS]

end SameOrder

/-! ### Merging -/

/-- **The merge of sorted lists is sorted.** -/
theorem Sorted.merge (hA : ∀ x ∈ A, x ∈ S) (hB : ∀ x ∈ B, x ∈ S) (hsA : Sorted less A) (hsB : Sorted less B) :
    Sorted less (A.merge B (le less)) := by
  induction A generalizing B with
  | nil => rwa [List.nil_merge]
  | cons a A ihA =>
    induction B with
    | nil => rwa [List.merge_right]
    | cons b B ihB =>
      obtain ⟨haA, hsA'⟩ := List.pairwise_cons.mp hsA
      obtain ⟨hbB, hsB'⟩ := List.pairwise_cons.mp hsB
      obtain ⟨ha, hA'⟩ := List.forall_mem_cons.mp hA
      obtain ⟨hb, hB'⟩ := List.forall_mem_cons.mp hB
      rw [List.cons_merge_cons]
      by_cases hab : le less a b = true
      · rw [if_pos hab]
        refine List.Pairwise.cons (fun x hx => ?_) (ihA hA' hB hsA' hsB)
        obtain hx | hx := List.mem_merge.mp hx
        · exact haA x hx
        · obtain rfl | hx := List.mem_cons.mp hx
          · exact hab
          · exact le_iff.mpr (hS.le_trans ha hb (hB' x hx) (le_iff.mp hab) (le_iff.mp (hbB x hx)))
      · rw [if_neg hab]
        have hba : less b a = true := le_eq_false.mp (eq_false_of_ne_true hab)
        refine List.Pairwise.cons (fun x hx => ?_) (ihB hB' hsB')
        obtain hx | hx := List.mem_merge.mp hx
        · obtain rfl | hx := List.mem_cons.mp hx
          · exact hS.le_of_less hb ha hba
          · exact hS.le_of_less hb (hA' x hx) (hS.less_of_less_of_le hb ha (hA' x hx) hba (le_iff.mp (haA x hx)))
        · exact hbB x hx

/-- **The merge keeps the order of tied elements**, those of the first list before those of the
second. -/
theorem filter_merge (hx : x ∈ S) (hA : ∀ x ∈ A, x ∈ S) (hB : ∀ x ∈ B, x ∈ S) (hsA : Sorted less A) :
    (A.merge B (le less)).filter (tied less x) = A.filter (tied less x) ++ B.filter (tied less x) := by
  induction A generalizing B with
  | nil => rw [List.nil_merge, List.filter_nil, List.nil_append]
  | cons a A ihA =>
    induction B with
    | nil => rw [List.merge_right, List.filter_nil, List.append_nil]
    | cons b B ihB =>
      obtain ⟨haA, hsA'⟩ := List.pairwise_cons.mp hsA
      obtain ⟨ha, hA'⟩ := List.forall_mem_cons.mp hA
      obtain ⟨hb, hB'⟩ := List.forall_mem_cons.mp hB
      rw [List.cons_merge_cons]
      by_cases hab : le less a b = true
      · rw [if_pos hab, List.filter_cons, ihA hA' hB hsA']
        by_cases hxa : tied less x a = true
        · rw [if_pos hxa, List.filter_cons_of_pos hxa, List.cons_append]
        · rw [if_neg hxa, List.filter_cons_of_neg hxa]
      · have hba : less b a = true := le_eq_false.mp (eq_false_of_ne_true hab)
        rw [if_neg hab, List.filter_cons, ihB hB']
        by_cases hxb : tied less x b = true
        · have hnone : (a :: A).filter (tied less x) = [] := by
            rw [List.filter_eq_nil_iff]
            intro y hy
            have hby : less b y = true := by
              obtain rfl | hy := List.mem_cons.mp hy
              · exact hba
              · exact hS.less_of_less_of_le hb ha (hA' y hy) hba (le_iff.mp (haA y hy))
            rw [tied_eq_false hS hb (hA y hy) hx hby hxb]
            exact Bool.false_ne_true
          rw [if_pos hxb, hnone, List.filter_cons_of_pos hxb]
          rfl
        · rw [if_neg hxb, List.filter_cons_of_neg hxb]

theorem SameOrder.merge (hA : ∀ x ∈ A, x ∈ S) (hB : ∀ x ∈ B, x ∈ S) (hsA : Sorted less A) :
    SameOrder less (A ++ B) (A.merge B (le less)) where
  perm := List.merge_perm_append (le less)
  ties x hx := by
    have hxS : x ∈ S := (List.mem_append.mp hx).elim (hA x) (hB x)
    rw [filter_merge hS hxS hA hB hsA, List.filter_append]

/-- Sorted lists with the same elements are the same when their tied elements are in the same
order. -/
theorem Sorted.eq_of_ties (hl : ∀ x ∈ l, x ∈ S) (hs : Sorted less l) (hs' : Sorted less l') (hperm : l.Perm l')
    (hties : ∀ a ∈ l, l.filter (tied less a) = l'.filter (tied less a)) : l = l' := by
  induction l generalizing l' with
  | nil => exact hperm.nil_eq
  | cons a l ih =>
    cases l' with
    | nil => exact absurd hperm.eq_nil (List.cons_ne_nil a l)
    | cons b l' =>
      have ha := hl a List.mem_cons_self
      have hb := hl b (hperm.mem_iff.mpr List.mem_cons_self)
      obtain ⟨hal, hsl⟩ := List.pairwise_cons.mp hs
      obtain ⟨hbl, hsl'⟩ := List.pairwise_cons.mp hs'
      have hle : ∀ x ∈ S, le less x x = true := fun x hx => le_iff.mpr (hS.irrefl x hx)
      have hab : le less a b = true := by
        obtain rfl | hmem := List.mem_cons.mp (hperm.mem_iff.mpr (List.mem_cons_self (a := b)))
        · exact hle b hb
        · exact hal b hmem
      have hba : le less b a = true := by
        obtain rfl | hmem := List.mem_cons.mp (hperm.mem_iff.mp (List.mem_cons_self (a := a)))
        · exact hle a ha
        · exact hbl a hmem
      have htied : tied less a b = true := by rw [tied, hab, hba, Bool.and_self]
      -- the two heads are tied, and each comes first among what is tied with it
      have hfirst := hties a List.mem_cons_self
      rw [List.filter_cons_of_pos (tied_self hS ha), List.filter_cons_of_pos htied] at hfirst
      obtain rfl : a = b := (List.cons.inj hfirst).1
      congr 1
      refine ih (fun x hx => hl x (List.mem_cons_of_mem a hx)) hsl hsl' hperm.cons_inv fun x hx => ?_
      have hx := hties x (List.mem_cons_of_mem a hx)
      by_cases hxa : tied less x a = true
      · rw [List.filter_cons_of_pos hxa, List.filter_cons_of_pos hxa] at hx
        exact (List.cons.inj hx).2
      · rwa [List.filter_cons_of_neg hxa, List.filter_cons_of_neg hxa] at hx

/-- **There is one stable sort of a list.** -/
theorem IsStableSort.unique (hl : ∀ x ∈ l, x ∈ S) (h : IsStableSort less l l') (h' : IsStableSort less l l'') :
    l' = l'' := by
  refine Sorted.eq_of_ties hS (fun x hx => hl x (h.perm.mem_iff.mp hx)) h.sorted h'.sorted (h.perm.trans h'.perm.symm)
    fun a ha => ?_
  have hmem := h.perm.mem_iff.mp ha
  rw [h.ties a hmem, h'.ties a hmem]

/-- **Inserting an element behind those it is tied with** goes on with a stable sort. -/
theorem IsStableSort.insert (hl : ∀ x ∈ l, x ∈ S) (ha : a ∈ S) (h : IsStableSort less l l') :
    IsStableSort less (l ++ [a]) (l'.merge [a] (le less)) := by
  have hl' : ∀ x ∈ l', x ∈ S := fun x hx => hl x (h.perm.mem_iff.mp hx)
  have hone : ∀ x ∈ [a], x ∈ S := fun x hx => List.mem_singleton.mp hx ▸ ha
  refine ⟨(h.append hS (SameOrder.refl [a]) hl hone).trans (SameOrder.merge hS hl' hone h.sorted), ?_⟩
  exact Sorted.merge hS hl' hone h.sorted (List.pairwise_singleton _ a)

end Weak

/-! ### Runs -/

/-- The runs of a list: the longest stretches that are in order. -/
def runs (less : α → α → Bool) (l : List α) : List (List α) := l.splitBy (le less)

/-- Merge lists in pairs. -/
def mergePairs (less : α → α → Bool) : List (List α) → List (List α)
  | [] => []
  | [A] => [A]
  | A :: B :: ls => A.merge B (le less) :: mergePairs less ls

theorem length_mergePairs (ls : List (List α)) : (mergePairs less ls).length = (ls.length + 1) / 2 := by
  fun_induction mergePairs less ls with
  | case1 => simp
  | case2 A => simp
  | case3 A B ls ih =>
    simp only [List.length_cons, ih]
    omega

theorem flatten_runs (less : α → α → Bool) (l : List α) : (runs less l).flatten = l := List.flatten_splitBy _ l

/-- An element in front of a run that it may stand before goes on with the run. -/
theorem runs_cons_of_le (hab : le less a b = true) :
    ∃ r rs, runs less (b :: l) = r :: rs ∧ runs less (a :: b :: l) = (a :: r) :: rs := by
  cases hruns : runs less (b :: l) with
  | nil => exact absurd (List.splitBy_eq_nil.mp hruns) (List.cons_ne_nil b l)
  | cons r rs =>
    obtain ⟨hflat, hnil, hchain, hmax⟩ := List.splitBy_eq_iff.mp hruns
    obtain _ | ⟨c, r⟩ := r
    · exact absurd List.mem_cons_self hnil
    obtain ⟨rfl, rfl⟩ := List.cons.inj hflat
    refine ⟨b :: r, rs, rfl, List.splitBy_eq_iff.mpr ⟨rfl, ?_, ?_, ?_⟩⟩
    · exact fun hmem => hnil ((List.mem_cons.mp hmem).elim (fun h => by cases h) (List.mem_cons_of_mem _))
    · intro m hm
      obtain rfl | hm := List.mem_cons.mp hm
      · exact List.isChain_cons_cons.mpr ⟨hab, hchain _ List.mem_cons_self⟩
      · exact hchain m (List.mem_cons_of_mem _ hm)
    · rw [List.isChain_cons] at hmax ⊢
      refine ⟨fun m hm => ?_, hmax.2⟩
      obtain ⟨h₁, h₂, hlast⟩ := hmax.1 m hm
      exact ⟨List.cons_ne_nil _ _, h₂, by rwa [List.getLast_cons_cons]⟩

/-- The first run: it is in order, and what comes after it is less than its last element. -/
theorem runs_eq_cons {r : List α} {rs : List (List α)} (h : runs less l = r :: rs) :
    ∃ hr : r ≠ [], InOrder less r ∧ (∀ y ∈ rs.flatten.head?, less y (r.getLast hr) = true) ∧ runs less rs.flatten = rs := by
  obtain ⟨-, hnil, hchain, hmax⟩ := List.splitBy_eq_iff.mp h
  have hnil' : [] ∉ rs := fun hmem => hnil (List.mem_cons_of_mem r hmem)
  have hr : r ≠ [] := fun he => hnil (he ▸ List.mem_cons_self)
  obtain ⟨hnext, hmax'⟩ := List.isChain_cons.mp hmax
  refine ⟨hr, hchain r List.mem_cons_self, fun y hy => ?_,
    List.splitBy_flatten hnil' (fun m hm => hchain m (List.mem_cons_of_mem r hm)) hmax'⟩
  cases rs with
  | nil => cases hy
  | cons m rs =>
    obtain ⟨hr', hm, hless⟩ := hnext m rfl
    rw [List.flatten_cons, List.head?_append_of_ne_nil m hm, List.head?_eq_some_head hm] at hy
    rw [← Option.some.inj hy]
    exact le_eq_false.mp hless

/-- A list in order in front of another makes one more run at most. -/
theorem length_runs_append_le (hA : InOrder less A) (l : List α) :
    (runs less (A ++ l)).length ≤ (runs less l).length + 1 := by
  induction A with
  | nil => exact Nat.le_succ _
  | cons a A ih =>
    cases hl : A ++ l with
    | nil =>
      obtain ⟨rfl, rfl⟩ := List.append_eq_nil_iff.mp hl
      exact Nat.le_refl 1
    | cons b m =>
      rw [List.cons_append, hl]
      by_cases hab : le less a b = true
      · obtain ⟨r, rs, hruns, hruns'⟩ := runs_cons_of_le (l := m) hab
        have hih := ih hA.tail
        rw [hl, hruns] at hih
        rw [hruns']
        exact hih
      · have hnil : A = [] := by
          cases A with
          | nil => rfl
          | cons c A => exact absurd ((List.cons.inj hl).1 ▸ (List.isChain_cons_cons.mp hA).1) hab
        rw [hnil, List.nil_append] at hl
        have happ : runs less ([a] ++ b :: m) = runs less [a] ++ runs less (b :: m) := by
          refine List.splitBy_append_cons m fun x hx => ?_
          rw [← Option.some.inj hx]
          exact eq_false_of_ne_true hab
        rw [hl]
        show (runs less ([a] ++ b :: m)).length ≤ _
        rw [happ, List.length_append, Nat.add_comm]
        exact Nat.le_refl _

variable {ls : List (List α)}

/-- There are no more runs than lists in order that make up the list. -/
theorem length_runs_flatten_le (hls : ∀ A ∈ ls, InOrder less A) : (runs less ls.flatten).length ≤ ls.length := by
  induction ls with
  | nil => exact Nat.le_refl 0
  | cons A ls ih =>
    have hrest := ih fun B hB => hls B (List.mem_cons_of_mem A hB)
    have happ := length_runs_append_le (hls A List.mem_cons_self) ls.flatten
    rw [List.flatten_cons, List.length_cons]
    omega

theorem length_runs_le (less : α → α → Bool) (l : List α) : (runs less l).length ≤ l.length := by
  induction l with
  | nil => exact Nat.le_refl 0
  | cons a l ih =>
    have happ : (runs less (a :: l)).length ≤ (runs less l).length + 1 :=
      length_runs_append_le (List.isChain_singleton a) l
    rw [List.length_cons]
    omega

/-- A pass that makes more than one list makes fewer than there were. -/
theorem length_mergePairs_lt (h : 1 < (mergePairs less ls).length) : (mergePairs less ls).length < ls.length := by
  rw [length_mergePairs] at h ⊢
  omega

theorem Sorted.flatten (hls : ∀ A ∈ ls, Sorted less A) (hlen : ls.length ≤ 1) : Sorted less ls.flatten := by
  match ls, hlen with
  | [], _ => exact List.Pairwise.nil
  | [A], _ =>
    rw [List.flatten_singleton]
    exact hls A List.mem_cons_self

section Pass

variable (hS : StrictWeakOn less S) {ls : List (List α)}
include hS

section

variable (hls : ∀ A ∈ ls, (∀ x ∈ A, x ∈ S) ∧ Sorted less A)
include hls

/-- **A pass keeps the order of tied elements.** -/
theorem SameOrder.mergePairs :
    SameOrder less ls.flatten (mergePairs less ls).flatten := by
  fun_induction Sorting.mergePairs less ls with
  | case1 => exact .refl _
  | case2 A => exact .refl _
  | case3 A B ls ih =>
    obtain ⟨hA, hsA⟩ := hls A (by simp)
    obtain ⟨hB, -⟩ := hls B (by simp)
    have hrest : ∀ C ∈ ls, (∀ x ∈ C, x ∈ S) ∧ Sorted less C := fun C hC => hls C (by simp [hC])
    have hflat : ∀ x ∈ ls.flatten, x ∈ S := by
      intro x hx
      obtain ⟨C, hC, hxC⟩ := List.mem_flatten.mp hx
      exact (hrest C hC).1 x hxC
    have hAB : ∀ x ∈ A ++ B, x ∈ S := fun x hx => (List.mem_append.mp hx).elim (hA x) (hB x)
    rw [List.flatten_cons, List.flatten_cons, List.flatten_cons, ← List.append_assoc]
    exact (SameOrder.merge hS hA hB hsA).append hS (ih hrest) hAB hflat

/-- **And it makes sorted lists.** -/
theorem sorted_of_mem_mergePairs :
    ∀ A ∈ mergePairs less ls, Sorted less A := by
  fun_induction mergePairs less ls with
  | case1 => exact fun A hA => absurd hA List.not_mem_nil
  | case2 A => exact fun B hB => (hls B hB).2
  | case3 A B ls ih =>
    obtain ⟨hA, hsA⟩ := hls A (by simp)
    obtain ⟨hB, hsB⟩ := hls B (by simp)
    intro C hC
    obtain rfl | hC := List.mem_cons.mp hC
    · exact Sorted.merge hS hA hB hsA hsB
    · exact ih (fun D hD => hls D (by simp [hD])) C hC

end

omit hS in
theorem inOrder_of_mem_runs (hA : A ∈ runs less l) : InOrder less A := List.isChain_of_mem_splitBy hA

theorem sorted_of_mem_runs (hl : ∀ x ∈ l, x ∈ S) (hA : A ∈ runs less l) : (∀ x ∈ A, x ∈ S) ∧ Sorted less A := by
  have hmem : ∀ x ∈ A, x ∈ S := by
    intro x hx
    apply hl
    rw [← flatten_runs less l]
    exact List.mem_flatten.mpr ⟨A, hA, hx⟩
  exact ⟨hmem, (inOrder_of_mem_runs hA).sorted hS hmem⟩

end Pass

end Pintos.Sorting
