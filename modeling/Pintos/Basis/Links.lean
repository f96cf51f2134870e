import Mathlib.Data.List.Chain
import Mathlib.Data.List.Nodup

/-!
# Doubly linked lists

Nodes have a link to the node before them and one to the node after them. A list is a
chain of nodes between two sentinels, its head and its tail, and there may be many lists on
the same nodes, as long as no node is on two of them (`IsLists`).

All changes to lists are made of three. `cut` takes a stretch of nodes out of a list, by
two links (`IsLists.cut`); the stretch stays linked in itself. `link` puts such a stretch into a
list, by four links (`IsLists.link`). Turning the links of all nodes of a list around turns the list
around (`IsLists.turn`). Each of them touches the nodes of one list, and the others stay as they are
(`IsLists.replace`).
-/

namespace Pintos

open Function

/-- The links of the nodes. -/
structure Links (ν : Type) where
  /-- The node before. -/
  prev : ν → Option ν
  /-- The node after. -/
  next : ν → Option ν

/-- The two ends of a list, which are not elements. -/
structure Sentinels (ν : Type) where
  /-- The node before the first element. -/
  head : ν
  /-- The node after the last element. -/
  tail : ν

/-- The nodes of a list with the elements `xs`. -/
def Sentinels.nodes {ν : Type} (s : Sentinels ν) (xs : List ν) : List ν := s.head :: (xs ++ [s.tail])

namespace Links

variable {ν ι : Type}

/-- `b` comes right after `a`. -/
def Adjacent (h : Links ν) (a b : ν) : Prop := h.next a = some b ∧ h.prev b = some a

/-- The nodes are linked one after the other, in both directions. -/
def Chain (h : Links ν) (l : List ν) : Prop := l.IsChain h.Adjacent

/-- `xs` are the elements of the list between the sentinels. -/
structure IsList (h : Links ν) (s : Sentinels ν) (xs : List ν) : Prop where
  /-- There is nothing before the head. -/
  first : h.prev s.head = none
  /-- There is nothing after the tail. -/
  last : h.next s.tail = none
  /-- The nodes are linked. -/
  chain : h.Chain (s.nodes xs)
  /-- No node is there twice. -/
  nodup : (s.nodes xs).Nodup

/-- Lists without a node in common. -/
structure IsLists (h : Links ν) (s : ι → Sentinels ν) (xs : ι → List ν) : Prop where
  /-- Each is a list. -/
  list : ∀ i, h.IsList (s i) (xs i)
  /-- No node is on two of them. -/
  disjoint : ∀ i j, i ≠ j → List.Disjoint ((s i).nodes (xs i)) ((s j).nodes (xs j))

/-- The links of the nodes of `l` are the same. -/
def SameAt (h h' : Links ν) (l : List ν) : Prop := ∀ n ∈ l, h'.next n = h.next n ∧ h'.prev n = h.prev n

/-! ### Chains -/

section Chains

variable {h h' : Links ν} {a b p q : ν} {l u v r : List ν}

theorem head_notMem_tail (hnd : r.Nodup) (hr : r ≠ []) : r.head hr ∉ r.tail := by
  rw [← List.cons_head_tail hr] at hnd
  exact (List.nodup_cons.mp hnd).1

theorem getLast_notMem_dropLast (hnd : r.Nodup) (hr : r ≠ []) : r.getLast hr ∉ r.dropLast := by
  rw [← List.dropLast_append_getLast hr, List.nodup_append] at hnd
  exact fun hmem => hnd.2.2 _ hmem _ (List.mem_singleton_self _) rfl

/-- A chain of one relation is a chain of another one that holds between its neighbours. -/
theorem isChain_imp {R S : ν → ν → Prop} (hc : l.IsChain R)
    (himp : ∀ a b, a ∈ l.dropLast → b ∈ l.tail → R a b → S a b) : l.IsChain S := by
  rw [List.isChain_iff_forall_rel_of_append_cons_cons] at hc ⊢
  rintro a b l₁ l₂ rfl
  refine himp a b ?_ ?_ (hc rfl)
  · rw [List.dropLast_append_of_ne_nil (List.cons_ne_nil _ _), List.dropLast_cons_of_ne_nil (List.cons_ne_nil _ _)]
    exact List.mem_append_right _ List.mem_cons_self
  · cases l₁ with
    | nil => exact List.mem_cons_self
    | cons c l₁ => exact List.mem_append_right _ (List.mem_cons_of_mem _ List.mem_cons_self)

/-- A chain is not touched by links that go out of it. -/
theorem Chain.congr (hc : h.Chain l) (hnext : ∀ n ∈ l.dropLast, h'.next n = h.next n)
    (hprev : ∀ n ∈ l.tail, h'.prev n = h.prev n) : h'.Chain l := by
  refine isChain_imp hc fun a b ha hb hab => ?_
  exact ⟨(hnext a ha).trans hab.1, (hprev b hb).trans hab.2⟩

theorem chain_append_cons_cons :
    h.Chain (u ++ a :: b :: v) ↔ h.Chain (u ++ [a]) ∧ h.Adjacent a b ∧ h.Chain (b :: v) :=
  List.isChain_append_cons_cons

/-- The links at the two ends of a stretch. -/
theorem chain_stretch (hr : r ≠ []) : h.Chain (u ++ p :: (r ++ q :: v)) ↔
    h.Chain (u ++ [p]) ∧ h.Adjacent p (r.head hr) ∧ h.Chain r ∧ h.Adjacent (r.getLast hr) q ∧ h.Chain (q :: v) := by
  have hhead : ∀ y, y ∈ (r ++ q :: v).head? ↔ y = r.head hr := by
    intro y
    rw [List.head?_append, List.head?_eq_some_head hr]
    exact ⟨fun hy => (Option.some.inj hy).symm, fun hy => hy ▸ rfl⟩
  have hlast : ∀ x, x ∈ r.getLast? ↔ x = r.getLast hr := by
    intro x
    rw [List.getLast?_eq_some_getLast hr]
    exact ⟨fun hx => (Option.some.inj hx).symm, fun hx => hx ▸ rfl⟩
  have hrest : h.Chain (r ++ q :: v) ↔ h.Chain r ∧ h.Chain (q :: v) ∧ h.Adjacent (r.getLast hr) q := by
    refine List.isChain_append.trans (and_congr_right fun _ => and_congr_right fun _ => ?_)
    constructor
    · intro hrq
      exact hrq _ ((hlast _).mpr rfl) _ rfl
    · intro hrq x hx y hy
      rw [(hlast x).mp hx, ← Option.some.inj hy]
      exact hrq
  have hp : h.Chain (p :: (r ++ q :: v)) ↔ h.Adjacent p (r.head hr) ∧ h.Chain (r ++ q :: v) := by
    refine List.isChain_cons.trans (and_congr_left fun _ => ?_)
    exact ⟨fun hpr => hpr _ ((hhead _).mpr rfl), fun hpr y hy => (hhead y).mp hy ▸ hpr⟩
  rw [show h.Chain (u ++ p :: (r ++ q :: v)) ↔ _ from List.isChain_split]
  tauto

end Chains

/-! ### The changes -/

section Changes

variable [DecidableEq ν]

/-- Write a link to the node before. -/
@[simps]
def setPrev (h : Links ν) (n : ν) (p : Option ν) : Links ν := { h with prev := update h.prev n p }

/-- Write a link to the node after. -/
@[simps]
def setNext (h : Links ν) (n : ν) (p : Option ν) : Links ν := { h with next := update h.next n p }

/-- Leave out what is between `p` and `q`. -/
def cut (h : Links ν) (p q : ν) : Links ν := (h.setNext p (some q)).setPrev q (some p)

/-- Put the stretch from `first` to `last` between `p` and `b`. -/
def link (h : Links ν) (p b first last : ν) : Links ν :=
  (((h.setPrev first (some p)).setNext last (some b)).setNext p (some first)).setPrev b (some last)

/-- Exchange the links of the nodes of `l`. -/
def swap (h : Links ν) (l : List ν) : Links ν where
  prev n := if n ∈ l then h.next n else h.prev n
  next n := if n ∈ l then h.prev n else h.next n

variable {h : Links ν} {p q b : ν} {u v r : List ν}

theorem cut_next (h : Links ν) (p q n : ν) : (h.cut p q).next n = if n = p then some q else h.next n := by
  simp [cut, update_apply]

theorem cut_prev (h : Links ν) (p q n : ν) : (h.cut p q).prev n = if n = q then some p else h.prev n := by
  simp [cut, update_apply]

theorem link_next (h : Links ν) (p b first last n : ν) :
    (h.link p b first last).next n = if n = p then some first else if n = last then some b else h.next n := by
  simp [link, update_apply]

theorem link_prev (h : Links ν) (p b first last n : ν) :
    (h.link p b first last).prev n = if n = b then some last else if n = first then some p else h.prev n := by
  simp [link, update_apply]

/-- **Taking out a stretch.** -/
theorem Chain.cut (hc : h.Chain (u ++ p :: (r ++ q :: v))) (hnd : (u ++ p :: (r ++ q :: v)).Nodup) (hr : r ≠ []) :
    (h.cut p q).Chain (u ++ p :: q :: v) ∧ (h.cut p q).Chain r := by
  obtain ⟨hu, -, hchain, -, hv⟩ := (chain_stretch hr).mp hc
  simp only [List.nodup_append, List.nodup_cons, List.mem_append, List.mem_cons] at hnd
  have hpr : p ∉ r := by tauto
  have hqr : q ∉ r := by
    intro hq
    tauto
  have hpu : p ∉ u := fun hp => hnd.2.2 p hp p (.inl rfl) rfl
  have hqu : q ∉ u ++ [p] := by
    rw [List.mem_append, List.mem_singleton]
    rintro (hq | rfl)
    · exact hnd.2.2 q hq q (.inr (.inr (.inl rfl))) rfl
    · tauto
  have hpv : p ∉ q :: v := by
    rw [List.mem_cons]
    tauto
  have hqv : q ∉ v := by tauto
  refine ⟨chain_append_cons_cons.mpr ⟨hu.congr ?_ ?_, ?_, hv.congr ?_ ?_⟩, hchain.congr ?_ ?_⟩
  · rw [List.dropLast_concat]
    intro n hn
    rw [cut_next, if_neg (ne_of_mem_of_not_mem hn hpu)]
  · intro n hn
    rw [cut_prev, if_neg (ne_of_mem_of_not_mem (List.mem_of_mem_tail hn) hqu)]
  · rw [Adjacent, cut_next, cut_prev, if_pos rfl, if_pos rfl]
    exact ⟨rfl, rfl⟩
  · intro n hn
    rw [cut_next, if_neg (ne_of_mem_of_not_mem (List.dropLast_subset _ hn) hpv)]
  · intro n hn
    rw [cut_prev, if_neg (ne_of_mem_of_not_mem hn hqv)]
  · intro n hn
    rw [cut_next, if_neg (ne_of_mem_of_not_mem (List.dropLast_subset _ hn) hpr)]
  · intro n hn
    rw [cut_prev, if_neg (ne_of_mem_of_not_mem (List.mem_of_mem_tail hn) hqr)]

/-- **Putting in a stretch.** -/
theorem Chain.link (hc : h.Chain (u ++ p :: b :: v)) (hchain : h.Chain r) (hr : r ≠ [])
    (hnd : (u ++ p :: (r ++ b :: v)).Nodup) : (h.link p b (r.head hr) (r.getLast hr)).Chain (u ++ p :: (r ++ b :: v)) := by
  obtain ⟨hu, -, hv⟩ := chain_append_cons_cons.mp hc
  have hfirst := List.head_mem hr
  have hlast := List.getLast_mem hr
  have hndr : r.Nodup := (List.nodup_cons.mp (List.nodup_append.mp hnd).2.1).2.of_append_left
  simp only [List.nodup_append, List.nodup_cons, List.mem_append, List.mem_cons] at hnd
  obtain ⟨-, ⟨hp, -, ⟨hbv, -⟩, hrv⟩, hu'⟩ := hnd
  have hpu : p ∉ u := fun hmem => hu' p hmem p (.inl rfl) rfl
  have hru : ∀ n ∈ r, n ∉ u ++ [p] := by
    intro n hn hmem
    rcases List.mem_append.mp hmem with hmem | hmem
    · exact hu' n hmem n (.inr (.inl hn)) rfl
    · rw [List.mem_singleton.mp hmem] at hn
      exact hp (.inl hn)
  have hbu : b ∉ u ++ [p] := by
    intro hmem
    rcases List.mem_append.mp hmem with hmem | hmem
    · exact hu' b hmem b (.inr (.inr (.inl rfl))) rfl
    · rw [List.mem_singleton.mp hmem] at hp
      exact hp (.inr (.inl rfl))
  have hpr : p ∉ r := fun hmem => hp (.inl hmem)
  have hbr : b ∉ r := fun hmem => hrv b hmem b (.inl rfl) rfl
  have hpv : p ∉ b :: v := fun hmem => hp (.inr (List.mem_cons.mp hmem))
  have hrbv : ∀ n ∈ r, n ∉ b :: v := fun n hn hmem => hrv n hn n (List.mem_cons.mp hmem) rfl
  have hplast : r.getLast hr ≠ p := ne_of_mem_of_not_mem hlast hpr
  have hbfirst : r.head hr ≠ b := ne_of_mem_of_not_mem hfirst hbr
  refine (chain_stretch hr).mpr ⟨hu.congr ?_ ?_, ⟨?_, ?_⟩, hchain.congr ?_ ?_, ⟨?_, ?_⟩, hv.congr ?_ ?_⟩
  · rw [List.dropLast_concat]
    intro n hn
    rw [link_next, if_neg (ne_of_mem_of_not_mem hn hpu), if_neg]
    rintro rfl
    exact hru _ hlast (List.mem_append_left _ hn)
  · intro n hn
    rw [link_prev, if_neg (ne_of_mem_of_not_mem (List.mem_of_mem_tail hn) hbu), if_neg]
    rintro rfl
    exact hru _ hfirst (List.mem_of_mem_tail hn)
  · rw [link_next, if_pos rfl]
  · rw [link_prev, if_neg hbfirst, if_pos rfl]
  · intro n hn
    rw [link_next, if_neg (ne_of_mem_of_not_mem (List.dropLast_subset _ hn) hpr),
      if_neg (ne_of_mem_of_not_mem hn (getLast_notMem_dropLast hndr hr))]
  · intro n hn
    rw [link_prev, if_neg (ne_of_mem_of_not_mem (List.mem_of_mem_tail hn) hbr),
      if_neg (ne_of_mem_of_not_mem hn (head_notMem_tail hndr hr))]
  · rw [link_next, if_neg hplast, if_pos rfl]
  · rw [link_prev, if_pos rfl]
  · intro n hn
    have hmem := List.dropLast_subset _ hn
    rw [link_next, if_neg (ne_of_mem_of_not_mem hmem hpv), if_neg]
    rintro rfl
    exact hrbv _ hlast hmem
  · intro n hn
    rw [link_prev, if_neg (ne_of_mem_of_not_mem hn hbv), if_neg]
    rintro rfl
    exact hrbv _ hfirst (List.mem_cons_of_mem _ hn)

/-- Turn the links of a list around. -/
def turn (h : Links ν) (s : Sentinels ν) (xs : List ν) (first last : ν) : Links ν :=
  ((((h.swap xs).setNext s.head (some last)).setPrev s.tail (some first)).setPrev last (some s.head)).setNext first
    (some s.tail)

theorem turn_next (h : Links ν) (s : Sentinels ν) (xs : List ν) (first last n : ν) :
    (h.turn s xs first last).next n =
      if n = first then some s.tail else if n = s.head then some last else (h.swap xs).next n := by
  simp [turn, update_apply]

theorem turn_prev (h : Links ν) (s : Sentinels ν) (xs : List ν) (first last n : ν) :
    (h.turn s xs first last).prev n =
      if n = last then some s.head else if n = s.tail then some first else (h.swap xs).prev n := by
  simp [turn, update_apply]

/-! ### Lists -/

variable {s : Sentinels ν} {xs ys : List ν} {h' : Links ν}

omit [DecidableEq ν] in
/-- The parts of a list without a node twice. -/
theorem IsList.parts (hl : h.IsList s xs) : s.head ∉ xs ∧ s.tail ∉ xs ∧ s.head ≠ s.tail ∧ xs.Nodup := by
  have hnd := hl.nodup
  simp only [Sentinels.nodes, List.nodup_cons, List.nodup_append, List.mem_append, List.mem_singleton] at hnd
  obtain ⟨hhead, hxs, -, htail⟩ := hnd
  exact ⟨fun hm => hhead (.inl hm), fun hm => htail _ hm _ rfl rfl, fun he => hhead (.inr he), hxs⟩

omit [DecidableEq ν] in
theorem IsList.congr (hl : h.IsList s xs) (hsame : SameAt h h' (s.nodes xs)) : h'.IsList s xs := by
  refine ⟨?_, ?_, hl.chain.congr ?_ ?_, hl.nodup⟩
  · rw [(hsame _ List.mem_cons_self).2, hl.first]
  · rw [(hsame _ (List.mem_cons_of_mem _ (List.mem_append_right _ (List.mem_singleton_self _)))).1, hl.last]
  · exact fun n hn => (hsame n (List.dropLast_subset _ hn)).1
  · exact fun n hn => (hsame n (List.mem_of_mem_tail hn)).2

/-- **Turning a list around.** -/
theorem IsList.turn (hl : h.IsList s xs) (hxs : xs ≠ []) :
    (h.turn s xs (xs.head hxs) (xs.getLast hxs)).IsList s xs.reverse := by
  obtain ⟨hhead, htail, hne, hnd⟩ := hl.parts
  have hfirst := List.head_mem hxs
  have hlast := List.getLast_mem hxs
  have hhl : s.head ≠ xs.getLast hxs := (ne_of_mem_of_not_mem hlast hhead).symm
  have htf : s.tail ≠ xs.head hxs := (ne_of_mem_of_not_mem hfirst htail).symm
  obtain ⟨-, -, hchain, -, -⟩ := (chain_stretch (u := []) hxs).mp hl.chain
  have hr : xs.reverse ≠ [] := by simpa using hxs
  refine ⟨?_, ?_, (chain_stretch (u := []) hr).mpr ⟨List.isChain_singleton _, ⟨?_, ?_⟩, ?_,
    ⟨?_, ?_⟩, List.isChain_singleton _⟩,
    ?_⟩
  · rw [turn_prev, if_neg hhl, if_neg hne]
    simp [swap, hhead, hl.first]
  · rw [turn_next, if_neg htf, if_neg hne.symm]
    simp [swap, htail, hl.last]
  · rw [turn_next, if_neg (ne_of_mem_of_not_mem hfirst hhead).symm, if_pos rfl, List.head_reverse]
  · rw [turn_prev, List.head_reverse, if_pos rfl]
  · refine List.isChain_reverse.mpr (isChain_imp hchain fun a b ha hb hab => ?_)
    have hmema := List.dropLast_subset _ ha
    have hmemb := List.mem_of_mem_tail hb
    constructor
    · rw [turn_next, if_neg (ne_of_mem_of_not_mem hb (head_notMem_tail hnd hxs)), if_neg (ne_of_mem_of_not_mem hmemb hhead)]
      simp [swap, hmemb, hab.2]
    · rw [turn_prev, if_neg (ne_of_mem_of_not_mem ha (getLast_notMem_dropLast hnd hxs)),
        if_neg (ne_of_mem_of_not_mem hmema htail)]
      simp [swap, hmema, hab.1]
  · rw [turn_next, List.getLast_reverse, if_pos rfl]
  · rw [turn_prev, List.getLast_reverse, if_neg (ne_of_mem_of_not_mem hlast htail).symm, if_pos rfl]
  · refine (List.Perm.nodup_iff ?_).mpr hl.nodup
    exact (List.Perm.append_right _ (List.reverse_perm xs)).cons _

variable {s : ι → Sentinels ν} {xs : ι → List ν} {i : ι} {a : List ν}

omit [DecidableEq ν] in
/-- One list is changed, and the nodes of the others are not touched. -/
theorem IsLists.replace [DecidableEq ι] (hs : h.IsLists s xs) (hi : h'.IsList (s i) ys)
    (hother : ∀ j, j ≠ i → SameAt h h' ((s j).nodes (xs j)))
    (hdisj : ∀ j, j ≠ i → List.Disjoint ((s i).nodes ys) ((s j).nodes (xs j))) :
    h'.IsLists s (update xs i ys) := by
  refine ⟨?_, fun j k hjk => ?_⟩
  · refine (forall_update_iff _ fun j l => h'.IsList (s j) l).mpr ⟨hi, fun j hj => ?_⟩
    exact (hs.list j).congr (hother j hj)
  · obtain rfl | hj := eq_or_ne j i
    · rw [update_self, update_of_ne hjk.symm]
      exact hdisj k hjk.symm
    · rw [update_of_ne hj]
      obtain rfl | hk := eq_or_ne k i
      · rw [update_self]
        exact fun n hn hmem => hdisj j hj hmem hn
      · rw [update_of_ne hk]
        exact hs.disjoint j k hjk

section Lists

variable [DecidableEq ι] {c d : List ν}

omit [DecidableEq ν] [DecidableEq ι] in
/-- The nodes of a list, with the neighbours `p` and `q` of a stretch named. -/
theorem nodes_stretch {s : Sentinels ν} (hleft : s.head :: c = u ++ [p]) (hright : d ++ [s.tail] = q :: v) (r : List ν) :
    s.nodes (c ++ (r ++ d)) = u ++ p :: (r ++ q :: v) := by
  calc s.head :: ((c ++ (r ++ d)) ++ [s.tail]) = (s.head :: c) ++ (r ++ (d ++ [s.tail])) := by simp
    _ = u ++ p :: (r ++ q :: v) := by
      rw [hleft, hright]
      simp

omit [DecidableEq ν] [DecidableEq ι] in
/-- The neighbours of a stretch are nodes of the list, and neither is the sentinel of the other
side. -/
theorem IsList.neighbours {s : Sentinels ν} (hl : h.IsList s (c ++ (r ++ d))) (hleft : s.head :: c = u ++ [p])
    (hright : d ++ [s.tail] = q :: v) :
    (p ∈ s.nodes (c ++ (r ++ d)) ∧ s.tail ≠ p) ∧ q ∈ s.nodes (c ++ (r ++ d)) ∧ s.head ≠ q := by
  have hnodes : s.nodes (c ++ (r ++ d)) = (u ++ [p]) ++ (r ++ q :: v) := by simp [nodes_stretch hleft hright]
  have hdisj := List.disjoint_of_nodup_append (hnodes ▸ hl.nodup)
  have hp : p ∈ u ++ [p] := by simp
  have hq : q ∈ r ++ q :: v := by simp
  have hhead : s.head ∈ u ++ [p] := hleft ▸ List.mem_cons_self
  have htail : s.tail ∈ r ++ q :: v := List.mem_append_right _ (hright ▸ by simp)
  rw [hnodes]
  refine ⟨⟨List.mem_append_left _ hp, ?_⟩, List.mem_append_right _ hq, ?_⟩
  · rintro rfl
    exact hdisj hp htail
  · rintro rfl
    exact hdisj hhead hq

/-- **A stretch is taken out of a list**; it is on no list then. -/
theorem IsLists.cut (hs : h.IsLists s xs) (hx : xs i = c ++ (r ++ d)) (hr : r ≠ [])
    (hleft : (s i).head :: c = u ++ [p]) (hright : d ++ [(s i).tail] = q :: v) :
    (h.cut p q).IsLists s (update xs i (c ++ d)) ∧ (h.cut p q).Chain r ∧ r.Nodup ∧
      (∀ j, List.Disjoint r ((s j).nodes (update xs i (c ++ d) j))) ∧
      ∀ j, j ≠ i → SameAt h (h.cut p q) ((s j).nodes (xs j)) := by
  have hl := hs.list i
  obtain ⟨⟨hp, htail⟩, hq, hhead⟩ := IsList.neighbours (hx ▸ hl) hleft hright
  rw [← hx] at hp hq
  have hnodes : (s i).nodes (xs i) = u ++ p :: (r ++ q :: v) := by rw [hx, nodes_stretch hleft hright]
  have hnodes' : (s i).nodes (c ++ d) = u ++ p :: q :: v := nodes_stretch hleft hright []
  have hnd := hl.nodup
  have hchain := hl.chain
  rw [hnodes] at hnd hchain
  obtain ⟨hout, hstretch⟩ := hchain.cut hnd hr
  have hsub : ∀ n ∈ (s i).nodes (c ++ d), n ∈ (s i).nodes (xs i) := by
    intro n hn
    rw [hnodes'] at hn
    rw [hnodes]
    simp only [List.mem_append, List.mem_cons] at hn ⊢
    tauto
  have hndr : r.Nodup := (List.nodup_cons.mp (List.nodup_append.mp hnd).2.1).2.of_append_left
  have hrout : List.Disjoint r ((s i).nodes (c ++ d)) := by
    intro n hn hmem
    rw [hnodes'] at hmem
    simp only [List.nodup_append, List.nodup_cons, List.mem_append, List.mem_cons] at hnd hmem
    rcases hmem with hmem | rfl | rfl | hmem
    · exact hnd.2.2 n hmem n (.inr (.inl hn)) rfl
    · exact hnd.2.1.1 (.inl hn)
    · exact hnd.2.1.2.2.2 n hn n (.inl rfl) rfl
    · exact hnd.2.1.2.2.2 n hn n (.inr hmem) rfl
  have hlist : (h.cut p q).IsList (s i) (c ++ d) := by
    refine ⟨?_, ?_, hnodes' ▸ hout, ?_⟩
    · rw [cut_prev, if_neg hhead, hl.first]
    · rw [cut_next, if_neg htail, hl.last]
    · rw [hnodes']
      have hsublist : List.Sublist (u ++ p :: q :: v) (u ++ p :: (r ++ q :: v)) :=
        ((List.sublist_append_right r (q :: v)).cons_cons p).append_left u
      exact hnd.sublist hsublist
  have hothers : ∀ j, j ≠ i → List.Disjoint ((s i).nodes (xs i)) ((s j).nodes (xs j)) := fun j hj =>
    hs.disjoint i j hj.symm
  have hsame : ∀ j, j ≠ i → SameAt h (h.cut p q) ((s j).nodes (xs j)) := by
    intro j hj n hn
    have hnp : n ≠ p := by
      rintro rfl
      exact hothers j hj hp hn
    have hnq : n ≠ q := by
      rintro rfl
      exact hothers j hj hq hn
    exact ⟨by rw [cut_next, if_neg hnp], by rw [cut_prev, if_neg hnq]⟩
  refine ⟨hs.replace hlist hsame ?_, hstretch, hndr, ?_, hsame⟩
  · intro j hj n hn hmem
    exact hothers j hj (hsub n hn) hmem
  · refine (forall_update_iff _ fun j l => r.Disjoint ((s j).nodes l)).mpr ⟨hrout, fun j hj n hn hmem => ?_⟩
    refine hothers j hj ?_ hmem
    rw [hnodes]
    exact List.mem_append_right _ (List.mem_cons_of_mem _ (List.mem_append_left _ hn))

/-- **A stretch that is on no list is put into one.** -/
theorem IsLists.link (hs : h.IsLists s xs) (hx : xs i = c ++ d) (hchain : h.Chain r) (hr : r ≠ []) (hnd : r.Nodup)
    (hfree : ∀ j, List.Disjoint r ((s j).nodes (xs j))) (hleft : (s i).head :: c = u ++ [p])
    (hright : d ++ [(s i).tail] = b :: v) :
    (h.link p b (r.head hr) (r.getLast hr)).IsLists s (update xs i (c ++ (r ++ d))) ∧
      ∀ j, j ≠ i → SameAt h (h.link p b (r.head hr) (r.getLast hr)) ((s j).nodes (xs j)) := by
  have hl := hs.list i
  obtain ⟨⟨hp, htail⟩, hb, hhead⟩ := IsList.neighbours (r := []) (hx ▸ hl) hleft hright
  rw [List.nil_append, ← hx] at hp hb
  have hnodes : (s i).nodes (xs i) = u ++ p :: b :: v := by
    rw [hx]
    exact nodes_stretch hleft hright []
  have hnodes' : (s i).nodes (c ++ (r ++ d)) = u ++ p :: (r ++ b :: v) := nodes_stretch hleft hright r
  have hfirst := List.head_mem hr
  have hlast := List.getLast_mem hr
  have hperm : List.Perm ((s i).nodes (c ++ (r ++ d))) (r ++ (s i).nodes (xs i)) := by
    rw [hnodes, hnodes']
    have hmove : List.Perm (u ++ [p] ++ (r ++ b :: v)) (r ++ (u ++ [p] ++ b :: v)) := by
      rw [← List.append_assoc, ← List.append_assoc r]
      exact (List.perm_append_comm).append_right _
    simpa using hmove
  have hndall : ((s i).nodes (c ++ (r ++ d))).Nodup := by
    rw [hperm.nodup_iff]
    exact List.Nodup.append hnd hl.nodup (hfree i)
  have hlist : (h.link p b (r.head hr) (r.getLast hr)).IsList (s i) (c ++ (r ++ d)) := by
    have hheadr : (s i).head ∉ r := fun hmem => hfree i hmem List.mem_cons_self
    have htailr : (s i).tail ∉ r := fun hmem =>
      hfree i hmem (List.mem_cons_of_mem _ (List.mem_append_right _ (List.mem_singleton_self _)))
    refine ⟨?_, ?_, ?_, hndall⟩
    · rw [link_prev, if_neg hhead, if_neg (ne_of_mem_of_not_mem hfirst hheadr).symm, hl.first]
    · rw [link_next, if_neg htail, if_neg (ne_of_mem_of_not_mem hlast htailr).symm, hl.last]
    · have hold := hl.chain
      rw [hnodes] at hold
      rw [hnodes'] at hndall ⊢
      exact hold.link hchain hr hndall
  have hsame : ∀ j, j ≠ i → SameAt h (h.link p b (r.head hr) (r.getLast hr)) ((s j).nodes (xs j)) := by
    intro j hj n hn
    have hnp : n ≠ p := by
      rintro rfl
      exact hs.disjoint i j hj.symm hp hn
    have hnb : n ≠ b := by
      rintro rfl
      exact hs.disjoint i j hj.symm hb hn
    have hnr : n ∉ r := fun hmem => hfree j hmem hn
    rw [link_next, link_prev, if_neg hnp, if_neg hnb, if_neg (ne_of_mem_of_not_mem hfirst hnr).symm,
      if_neg (ne_of_mem_of_not_mem hlast hnr).symm]
    exact ⟨rfl, rfl⟩
  refine ⟨hs.replace hlist hsame ?_, hsame⟩
  · intro j hj n hn hmem
    rcases List.mem_append.mp (hperm.mem_iff.mp hn) with hn | hn
    · exact hfree j hn hmem
    · exact hs.disjoint i j hj.symm hn hmem

/-- **A list is turned around.** -/
theorem IsLists.turn (hs : h.IsLists s xs) (hxs : xs i ≠ []) :
    (h.turn (s i) (xs i) ((xs i).head hxs) ((xs i).getLast hxs)).IsLists s (update xs i (xs i).reverse) ∧
      ∀ j, j ≠ i → SameAt h (h.turn (s i) (xs i) ((xs i).head hxs) ((xs i).getLast hxs)) ((s j).nodes (xs j)) := by
  have hnodes : ∀ n, n ∈ (s i).nodes (xs i).reverse ↔ n ∈ (s i).nodes (xs i) := by simp [Sentinels.nodes]
  have hsame : ∀ j, j ≠ i →
      SameAt h (h.turn (s i) (xs i) ((xs i).head hxs) ((xs i).getLast hxs)) ((s j).nodes (xs j)) := by
    intro j hj n hn
    have hout : n ∉ (s i).nodes (xs i) := fun hmem => hs.disjoint i j hj.symm hmem hn
    simp only [Sentinels.nodes, List.mem_cons, List.mem_append, List.not_mem_nil, or_false, not_or] at hout
    obtain ⟨hhead, hmem, htail⟩ := hout
    rw [turn_next, turn_prev, if_neg (ne_of_mem_of_not_mem (List.head_mem hxs) hmem).symm, if_neg hhead,
      if_neg (ne_of_mem_of_not_mem (List.getLast_mem hxs) hmem).symm, if_neg htail]
    simp [swap, hmem]
  refine ⟨hs.replace ((hs.list i).turn hxs) hsame ?_, hsame⟩
  intro j hj n hn hmem
  exact hs.disjoint i j hj.symm ((hnodes n).mp hn) hmem

end Lists

end Changes

end Links

end Pintos
