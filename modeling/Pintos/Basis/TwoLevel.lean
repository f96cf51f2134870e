import Mathlib.Data.List.Nodup

/-!
# Trees of two levels

A root has at each of `K` indices a table, or none, and a table has at each of `N` indices a leaf,
or none. The nodes of such a tree are different from each other (`TwoLevel`): a table can be added
where there is none (`TwoLevel.setTable`), and a leaf where there is a table (`TwoLevel.setLeaf`),
when the node is a new one.

A walk goes through the tables, at each one first through its leaves, and ends with the root. It
comes to every node, and to none twice (**`TwoLevel.walk_perm`**).
-/

namespace Pintos

variable {α : Type*}

/-- The nodes of a tree: the root, the tables and the leaves, all of them different. -/
structure TwoLevel (K N : ℕ) (table : ℕ → Option α) (leaf : ℕ → ℕ → Option α) (root : α) (nodes : List α) : Prop where
  mem_iff : ∀ p, p ∈ nodes ↔ p = root ∨ (∃ d < K, table d = some p) ∨ ∃ d < K, ∃ i < N, leaf d i = some p
  /-- A leaf is below a table. -/
  under : ∀ d < K, ∀ i < N, table d = none → leaf d i = none
  /-- The tables are different. -/
  own : ∀ d < K, ∀ d' < K, ∀ p, table d = some p → table d' = some p → d = d'
  /-- The root is not a table. -/
  ne_root : ∀ d < K, table d ≠ some root
  /-- The leaves are different. -/
  once : ∀ d < K, ∀ i < N, ∀ d' < K, ∀ i' < N, ∀ p, leaf d i = some p → leaf d' i' = some p → d = d' ∧ i = i'
  /-- A leaf is neither the root nor a table. -/
  apart : ∀ d < K, ∀ i < N, ∀ p, leaf d i = some p → p ≠ root ∧ ∀ d' < K, table d' ≠ some p

namespace TwoLevel

variable {K N : ℕ} {table table' : ℕ → Option α} {leaf leaf' : ℕ → ℕ → Option α} {root p : α} {nodes : List α}

theorem init (htable : ∀ d < K, table d = none) (hleaf : ∀ d < K, ∀ i < N, leaf d i = none) :
    TwoLevel K N table leaf root [root] where
  mem_iff q := by
    refine ⟨fun hq => .inl (List.mem_singleton.mp hq), ?_⟩
    rintro (rfl | ⟨d, hd, hq⟩ | ⟨d, hd, i, hi, hq⟩)
    · exact List.mem_singleton_self q
    · rw [htable d hd] at hq
      cases hq
    · rw [hleaf d hd i hi] at hq
      cases hq
  under d hd i hi _ := hleaf d hd i hi
  own d hd d' hd' q hq := by
    rw [htable d hd] at hq
    cases hq
  ne_root d hd := by
    rw [htable d hd]
    exact (Option.some_ne_none root).symm
  once d hd i hi d' hd' i' hi' q hq := by
    rw [hleaf d hd i hi] at hq
    cases hq
  apart d hd i hi q hq := by
    rw [hleaf d hd i hi] at hq
    cases hq

theorem congr (h : TwoLevel K N table leaf root nodes) (htable : ∀ d < K, table' d = table d)
    (hleaf : ∀ d < K, ∀ i < N, leaf' d i = leaf d i) : TwoLevel K N table' leaf' root nodes where
  mem_iff q := by
    rw [h.mem_iff]
    refine or_congr_right (or_congr ?_ ?_)
    · exact exists_congr fun d => and_congr_right fun hd => by rw [htable d hd]
    · exact exists_congr fun d => and_congr_right fun hd => exists_congr fun i => and_congr_right fun hi => by
        rw [hleaf d hd i hi]
  under d hd i hi := by
    rw [htable d hd, hleaf d hd i hi]
    exact h.under d hd i hi
  own d hd d' hd' := by
    rw [htable d hd, htable d' hd']
    exact h.own d hd d' hd'
  ne_root d hd := by
    rw [htable d hd]
    exact h.ne_root d hd
  once d hd i hi d' hd' i' hi' := by
    rw [hleaf d hd i hi, hleaf d' hd' i' hi']
    exact h.once d hd i hi d' hd' i' hi'
  apart d hd i hi q hq := by
    rw [hleaf d hd i hi] at hq
    obtain ⟨hroot, htables⟩ := h.apart d hd i hi q hq
    refine ⟨hroot, fun d' hd' => ?_⟩
    rw [htable d' hd']
    exact htables d' hd'

section Insert

variable (h : TwoLevel K N table leaf root nodes) (hp : p ∉ nodes)
include h hp

theorem ne_of_new : p ≠ root := fun hroot => hp ((h.mem_iff p).mpr (.inl hroot))

variable {d : ℕ}

theorem ne_table_of_new (hd : d < K) : table d ≠ some p :=
  fun htable => hp ((h.mem_iff p).mpr (.inr (.inl ⟨d, hd, htable⟩)))

theorem ne_leaf_of_new {i : ℕ} (hd : d < K) (hi : i < N) : leaf d i ≠ some p := fun hleaf =>
  hp ((h.mem_iff p).mpr (.inr (.inr ⟨d, hd, i, hi, hleaf⟩)))

theorem setTable {d₀ : ℕ} (hd₀ : d₀ < K) (hnone : table d₀ = none)
    (htable : ∀ d < K, table' d = if d = d₀ then some p else table d) : TwoLevel K N table' leaf root (p :: nodes) where
  mem_iff q := by
    rw [List.mem_cons, h.mem_iff]
    constructor
    · rintro (rfl | hroot | ⟨d, hd, hq⟩ | hleaf)
      · exact .inr (.inl ⟨d₀, hd₀, by rw [htable d₀ hd₀, if_pos rfl]⟩)
      · exact .inl hroot
      · have hne : d ≠ d₀ := by
          rintro rfl
          rw [hnone] at hq
          cases hq
        exact .inr (.inl ⟨d, hd, by rw [htable d hd, if_neg hne, hq]⟩)
      · exact .inr (.inr hleaf)
    · rintro (hroot | ⟨d, hd, hq⟩ | hleaf)
      · exact .inr (.inl hroot)
      · rw [htable d hd] at hq
        split at hq
        · exact .inl (Option.some.inj hq).symm
        · exact .inr (.inr (.inl ⟨d, hd, hq⟩))
      · exact .inr (.inr (.inr hleaf))
  under d hd i hi hnew := by
    rw [htable d hd] at hnew
    split at hnew
    · cases hnew
    · exact h.under d hd i hi hnew
  own d hd d' hd' q hq hq' := by
    rw [htable d hd] at hq
    rw [htable d' hd'] at hq'
    split at hq <;> split at hq'
    · rename_i h₁ h₂
      rw [h₁, h₂]
    · exact absurd (hq'.trans hq.symm) (h.ne_table_of_new hp hd')
    · exact absurd (hq.trans hq'.symm) (h.ne_table_of_new hp hd)
    · exact h.own d hd d' hd' q hq hq'
  ne_root d hd := by
    rw [htable d hd]
    split
    · exact fun heq => h.ne_of_new hp (Option.some.inj heq)
    · exact h.ne_root d hd
  once := h.once
  apart d hd i hi q hq := by
    obtain ⟨hroot, htables⟩ := h.apart d hd i hi q hq
    refine ⟨hroot, fun d' hd' => ?_⟩
    rw [htable d' hd']
    split
    · exact fun heq => h.ne_leaf_of_new hp hd hi (hq.trans heq.symm)
    · exact htables d' hd'

theorem setLeaf {d₀ i₀ : ℕ} (hd₀ : d₀ < K) (hi₀ : i₀ < N) (hsome : table d₀ ≠ none) (hnone : leaf d₀ i₀ = none)
    (hleaf : ∀ d < K, ∀ i < N, leaf' d i = if d = d₀ ∧ i = i₀ then some p else leaf d i) :
    TwoLevel K N table leaf' root (p :: nodes) where
  mem_iff q := by
    rw [List.mem_cons, h.mem_iff]
    constructor
    · rintro (rfl | hroot | htable | ⟨d, hd, i, hi, hq⟩)
      · exact .inr (.inr ⟨d₀, hd₀, i₀, hi₀, by rw [hleaf d₀ hd₀ i₀ hi₀, if_pos ⟨rfl, rfl⟩]⟩)
      · exact .inl hroot
      · exact .inr (.inl htable)
      · have hne : ¬ (d = d₀ ∧ i = i₀) := by
          rintro ⟨rfl, rfl⟩
          rw [hnone] at hq
          cases hq
        exact .inr (.inr ⟨d, hd, i, hi, by rw [hleaf d hd i hi, if_neg hne, hq]⟩)
    · rintro (hroot | htable | ⟨d, hd, i, hi, hq⟩)
      · exact .inr (.inl hroot)
      · exact .inr (.inr (.inl htable))
      · rw [hleaf d hd i hi] at hq
        split at hq
        · exact .inl (Option.some.inj hq).symm
        · exact .inr (.inr (.inr ⟨d, hd, i, hi, hq⟩))
  under d hd i hi hnew := by
    have hne : ¬ (d = d₀ ∧ i = i₀) := by
      rintro ⟨rfl, rfl⟩
      exact hsome hnew
    rw [hleaf d hd i hi, if_neg hne]
    exact h.under d hd i hi hnew
  own := h.own
  ne_root := h.ne_root
  once d hd i hi d' hd' i' hi' q hq hq' := by
    rw [hleaf d hd i hi] at hq
    rw [hleaf d' hd' i' hi'] at hq'
    split at hq <;> split at hq'
    · rename_i h₁ h₂
      rw [h₁.1, h₁.2, h₂.1, h₂.2]
      exact ⟨rfl, rfl⟩
    · exact absurd (hq'.trans hq.symm) (h.ne_leaf_of_new hp hd' hi')
    · exact absurd (hq.trans hq'.symm) (h.ne_leaf_of_new hp hd hi)
    · exact h.once d hd i hi d' hd' i' hi' q hq hq'
  apart d hd i hi q hq := by
    rw [hleaf d hd i hi] at hq
    split at hq
    · cases hq
      exact ⟨h.ne_of_new hp, fun d' hd' => h.ne_table_of_new hp hd'⟩
    · exact h.apart d hd i hi q hq

end Insert

/-! ### Walks -/

variable (N table leaf)

/-- The leaves that a walk comes to at one table, from an index on. -/
def leavesFrom (d i : ℕ) : List α := ((List.range N).drop i).filterMap (leaf d)

/-- The nodes that a walk comes to at one index of the root. -/
def branch (d : ℕ) : List α :=
  match table d with
  | none => []
  | some t => leavesFrom N leaf d 0 ++ [t]

/-- The nodes that a walk comes to, from an index of the root on. -/
def walkFrom (K : ℕ) (root : α) (d : ℕ) : List α := ((List.range K).drop d).flatMap (branch N table leaf) ++ [root]

variable {N table leaf}

theorem mem_branch {q : α} : q ∈ branch N table leaf d ↔
    ∃ t, table d = some t ∧ (q = t ∨ ∃ i < N, leaf d i = some q) := by
  unfold branch leavesFrom
  cases table d with
  | none => simp
  | some t => simp [List.mem_filterMap, or_comm]

theorem leavesFrom_succ {i : ℕ} (hi : i < N) :
    leavesFrom N leaf d i = (leaf d i).toList ++ leavesFrom N leaf d (i + 1) := by
  have hlen : i < (List.range N).length := by rwa [List.length_range]
  unfold leavesFrom
  rw [List.drop_eq_getElem_cons hlen, List.getElem_range]
  cases hleaf : leaf d i with
  | none => rw [List.filterMap_cons_none hleaf, Option.toList_none, List.nil_append]
  | some q => rw [List.filterMap_cons_some hleaf, Option.toList_some, List.singleton_append]

theorem leavesFrom_end : leavesFrom N leaf d N = [] := by
  rw [leavesFrom, List.drop_eq_nil_of_le (List.length_range ▸ Nat.le_refl N), List.filterMap_nil]

theorem walkFrom_succ (hd : d < K) :
    walkFrom N table leaf K root d = branch N table leaf d ++ walkFrom N table leaf K root (d + 1) := by
  have hlen : d < (List.range K).length := by rwa [List.length_range]
  unfold walkFrom
  rw [List.drop_eq_getElem_cons hlen, List.getElem_range, List.flatMap_cons, List.append_assoc]

theorem walkFrom_end : walkFrom N table leaf K root K = [root] := by
  unfold walkFrom
  rw [List.drop_eq_nil_of_le (List.length_range ▸ Nat.le_refl K)]
  rfl

/-- **A walk comes to every node, and to none twice.** -/
theorem walk_perm (h : TwoLevel K N table leaf root nodes) (hnodup : nodes.Nodup) :
    (walkFrom N table leaf K root 0).Perm nodes := by
  have hbranch : ∀ d ∈ List.range K, (branch N table leaf d).Nodup := by
    intro d hd
    rw [List.mem_range] at hd
    unfold branch leavesFrom
    cases htable : table d with
    | none => exact List.nodup_nil
    | some t =>
      refine List.nodup_append'.mpr ⟨?_, List.nodup_singleton t, ?_⟩
      · refine List.pairwise_filterMap.mpr (List.nodup_range.imp_of_mem fun {i j} hi hj hij => ?_)
        rintro q hq _ hq' rfl
        exact hij (h.once d hd i (List.mem_range.mp hi) d hd j (List.mem_range.mp hj) q hq hq').2
      · intro q hq ht
        obtain ⟨i, hi, hleaf⟩ := List.mem_filterMap.mp hq
        obtain rfl := List.mem_singleton.mp ht
        exact (h.apart d hd i (List.mem_range.mp hi) q hleaf).2 d hd htable
  have hdisjoint : (List.range K).Pairwise (Function.onFun List.Disjoint (branch N table leaf)) := by
    refine List.nodup_range.imp_of_mem fun {d d'} hd hd' hne => ?_
    rw [List.mem_range] at hd hd'
    intro q hq hq'
    obtain ⟨t, ht, hq⟩ := mem_branch.mp hq
    obtain ⟨t', ht', hq'⟩ := mem_branch.mp hq'
    rcases hq with rfl | ⟨i, hi, hleaf⟩ <;> rcases hq' with rfl | ⟨i', hi', hleaf'⟩
    · exact hne (h.own d hd d' hd' q ht ht')
    · exact (h.apart d' hd' i' hi' q hleaf').2 d hd ht
    · exact (h.apart d hd i hi q hleaf).2 d' hd' ht'
    · exact hne (h.once d hd i hi d' hd' i' hi' q hleaf hleaf').1
  have hmem : ∀ q, q ∈ walkFrom N table leaf K root 0 ↔ q ∈ nodes := by
    intro q
    rw [h.mem_iff, walkFrom, List.drop_zero, List.mem_append, List.mem_flatMap, List.mem_singleton]
    constructor
    · rintro (⟨d, hd, hq⟩ | hroot)
      · rw [List.mem_range] at hd
        obtain ⟨t, ht, rfl | ⟨i, hi, hleaf⟩⟩ := mem_branch.mp hq
        · exact .inr (.inl ⟨d, hd, ht⟩)
        · exact .inr (.inr ⟨d, hd, i, hi, hleaf⟩)
      · exact .inl hroot
    · rintro (hroot | ⟨d, hd, ht⟩ | ⟨d, hd, i, hi, hleaf⟩)
      · exact .inr hroot
      · exact .inl ⟨d, List.mem_range.mpr hd, mem_branch.mpr ⟨q, ht, .inl rfl⟩⟩
      · cases htable : table d with
        | none =>
          rw [h.under d hd i hi htable] at hleaf
          cases hleaf
        | some t => exact .inl ⟨d, List.mem_range.mpr hd, mem_branch.mpr ⟨t, htable, .inr ⟨i, hi, hleaf⟩⟩⟩
  have hwalk : (walkFrom N table leaf K root 0).Nodup := by
    unfold walkFrom
    rw [List.drop_zero]
    refine List.nodup_append'.mpr ⟨List.nodup_flatMap.mpr ⟨hbranch, hdisjoint⟩, List.nodup_singleton root, ?_⟩
    intro q hq hroot
    obtain rfl := List.mem_singleton.mp hroot
    obtain ⟨d, hd, hq⟩ := List.mem_flatMap.mp hq
    rw [List.mem_range] at hd
    obtain ⟨t, ht, rfl | ⟨i, hi, hleaf⟩⟩ := mem_branch.mp hq
    · exact h.ne_root d hd ht
    · exact (h.apart d hd i hi q hleaf).1 rfl
  exact (List.perm_ext_iff_of_nodup hwalk hnodup).mpr hmem

end TwoLevel

end Pintos
