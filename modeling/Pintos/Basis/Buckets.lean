import Mathlib.Data.List.Perm.Basic

/-!
# Buckets

Elements are kept in an array of lists, each in the list whose index a function gives for
it (`Filled`). What counts is which elements are kept, not in which order: the elements are
known up to a permutation. An element can be put in front of its list, and any element can be
taken out, and an element is looked for in its own list only (`Filled.find?_eq_none_iff`).
-/

namespace Pintos

variable {α : Type} {f : α → ℕ} {n i : ℕ} {bs : List (List α)} {b l : List α} {e : α}

/-- The lists `bs` have the elements `l`, and each of them in the list `f` gives. -/
structure Filled (f : α → ℕ) (n : ℕ) (bs : List (List α)) (l : List α) : Prop where
  /-- There are `n` lists. -/
  length : bs.length = n
  /-- Each element is in its list. -/
  placed : ∀ i b, bs[i]? = some b → ∀ e ∈ b, f e = i
  /-- The elements of all lists. -/
  elems : bs.flatten.Perm l

/-- To put an element in front of a list is to add it. -/
theorem flatten_set_cons (hb : bs[i]? = some b) : (bs.set i (e :: b)).flatten.Perm (e :: bs.flatten) := by
  induction bs generalizing i with
  | nil => simp at hb
  | cons c bs ih =>
    cases i with
    | zero =>
      rw [List.getElem?_cons_zero, Option.some.injEq] at hb
      subst hb
      simp
    | succ i =>
      rw [List.getElem?_cons_succ] at hb
      exact ((ih hb).append_left c).trans List.perm_middle

namespace Filled

theorem empty (f : α → ℕ) (n : ℕ) : Filled f n (List.replicate n []) [] where
  length := List.length_replicate
  placed i b hb e he := by
    rw [(List.mem_replicate.mp (List.mem_of_getElem? hb)).2] at he
    cases he
  elems := by simp

theorem perm {l' : List α} (h : Filled f n bs l) (hl : l.Perm l') : Filled f n bs l' :=
  ⟨h.length, h.placed, h.elems.trans hl⟩

section

variable (h : Filled f n bs l)
include h

theorem exists_bucket (hi : i < n) : ∃ b, bs[i]? = some b := by
  rw [← h.length] at hi
  exact ⟨_, List.getElem?_eq_getElem hi⟩

/-- The elements of a list are the elements that belong in it. -/
theorem mem_bucket (hb : bs[i]? = some b) : e ∈ b ↔ e ∈ l ∧ f e = i := by
  constructor
  · intro he
    exact ⟨h.elems.subset (List.mem_flatten_of_mem (List.mem_of_getElem? hb) he), h.placed i b hb e he⟩
  · rintro ⟨he, hfe⟩
    obtain ⟨c, hc, hec⟩ := List.mem_flatten.mp (h.elems.symm.subset he)
    obtain ⟨j, hj⟩ := List.getElem?_of_mem hc
    have hji : j = i := (h.placed j c hj e hec).symm.trans hfe
    rw [hji, hb] at hj
    rwa [Option.some.inj hj]

theorem cons (hb : bs[f e]? = some b) : Filled f n (bs.set (f e) (e :: b)) (e :: l) where
  length := by rw [List.length_set, h.length]
  placed i c hc x hx := by
    by_cases hi : i = f e
    · subst hi
      have hlt := (List.getElem?_eq_some_iff.mp hb).1
      rw [List.getElem?_set_self hlt, Option.some.injEq] at hc
      subst hc
      rcases List.mem_cons.mp hx with rfl | hx
      · rfl
      · exact h.placed _ b hb x hx
    · rw [List.getElem?_set_ne (Ne.symm hi)] at hc
      exact h.placed i c hc x hx
  elems := (flatten_set_cons hb).trans (h.elems.cons e)

theorem filter (p : α → Bool) : Filled f n (bs.map (List.filter p)) (l.filter p) where
  length := by rw [List.length_map, h.length]
  placed i c hc x hx := by
    rw [List.getElem?_map, Option.map_eq_some_iff] at hc
    obtain ⟨b, hb, rfl⟩ := hc
    exact h.placed i b hb x (List.mem_of_mem_filter hx)
  elems := by
    rw [← List.filter_flatten]
    exact h.elems.filter p

/-- The first element with a property in the list `i`: if all elements with the property belong
there, there is none only if there is none at all. -/
theorem find?_eq_none_iff (hb : bs[i]? = some b) {p : α → Bool}
    (hp : ∀ x, p x = true → f x = i) : b.find? p = none ↔ ∀ x ∈ l, ¬ p x = true := by
  rw [List.find?_eq_none]
  constructor
  · exact fun hnone x hx hpx => hnone x ((h.mem_bucket hb).mpr ⟨hx, hp x hpx⟩) hpx
  · exact fun hnone x hx => hnone x ((h.mem_bucket hb).mp hx).1

end

end Filled

end Pintos
