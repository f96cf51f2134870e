import Mathlib.Data.List.Basic

/-!
# Histories

The history of a run is a list of events that grows at its end. A history is lawful for `P` when
every event of it may follow what was there before: `P past e` for every `e` with `past` before it.
So a run keeps a history lawful if every event it adds may follow (`Lawful.append`).
-/

namespace Pintos

variable {α : Type*} {l : List α} {e : α}

/-- An event of a history with one more at its end: it is the last, or it was there and the last
comes after it. -/
theorem append_singleton_eq_append_cons_iff {l₁ l₂ : List α} {x : α} :
    l ++ [e] = l₁ ++ x :: l₂ ↔ (l = l₁ ∧ e = x ∧ l₂ = []) ∨ ∃ l₃, l₂ = l₃ ++ [e] ∧ l = l₁ ++ x :: l₃ := by
  constructor
  · intro h
    rcases List.eq_nil_or_concat' l₂ with rfl | ⟨l₃, y, rfl⟩
    · obtain ⟨hl, he⟩ := List.append_inj' h rfl
      exact .inl ⟨hl, List.singleton_inj.mp he, rfl⟩
    · rw [← List.cons_append, ← List.append_assoc] at h
      obtain ⟨hl, he⟩ := List.append_inj' h rfl
      exact .inr ⟨l₃, by rw [List.singleton_inj.mp he], hl⟩
  · rintro (⟨rfl, rfl, rfl⟩ | ⟨l₃, rfl, rfl⟩)
    · rfl
    · rw [List.append_assoc, List.cons_append]

/-- Every event may follow what was there before. -/
def Lawful (P : List α → α → Prop) (l : List α) : Prop := ∀ past e rest, l = past ++ e :: rest → P past e

namespace Lawful

variable {P : List α → α → Prop}

theorem nil : Lawful P [] := by
  intro past e rest h
  simp at h

theorem left {l' : List α} (h : Lawful P (l ++ l')) : Lawful P l := by
  intro past e rest heq
  apply h past e (rest ++ l')
  rw [heq, List.append_assoc, List.cons_append]

theorem append (h : Lawful P l) (he : P l e) : Lawful P (l ++ [e]) := by
  intro past e' rest heq
  rcases append_singleton_eq_append_cons_iff.mp heq with ⟨rfl, rfl, -⟩ | ⟨rest', -, hl⟩
  · exact he
  · exact h past e' rest' hl

theorem of_mem (h : Lawful P l) (he : e ∈ l) : ∃ past rest, l = past ++ e :: rest ∧ P past e := by
  obtain ⟨past, rest, hl⟩ := List.append_of_mem he
  exact ⟨past, rest, hl, h past e rest hl⟩

end Lawful

end Pintos
