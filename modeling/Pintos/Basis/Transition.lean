import Mathlib.Data.Finset.Card
import Mathlib.Data.Fintype.Basic

/-!
# Transition systems

A system of threads is a set of initial states and one executable step function:
`step s a` says what action `a` does in state `s`. An action that cannot be
taken (a thread waits at a semaphore, an argument is not one the thread has) is
`disabled`; an action that breaks the machine (a failed assertion, an access to
memory that was freed) is a `fault`; any other leads to the `next` state.

`Reach` are the states of all runs. An invariant of the steps is an invariant of
the runs (`Reach.invariant`). `guard` restricts a system to the steps that pass a
test. `replay` runs a list of actions, so that a run can be given by its actions
and computed.

A `Cell` is a piece of memory with its life: it is allocated once and may be
freed, and an access to it at any other time is a fault.

The last section counts: how the number of threads at some place changes when
one thread moves.
-/

namespace Pintos

open Function

/-- What an action does. -/
inductive Outcome (σ : Type*) where
  /-- It cannot be taken. -/
  | disabled
  /-- It breaks the machine. -/
  | fault
  /-- It leads to a state. -/
  | next (s : σ)
  deriving DecidableEq

variable {σ : Type*}

/-- The action does not break the machine, and a state it leads to has the property. -/
def Outcome.Safe {σ : Type*} (P : σ → Prop) : Outcome σ → Prop
  | .disabled => True
  | .fault => False
  | .next s => P s

theorem Outcome.Safe.ne_fault {P : σ → Prop} {o : Outcome σ} (h : o.Safe P) : o ≠ .fault := by
  rintro rfl
  exact h

theorem Outcome.Safe.of_next {P : σ → Prop} {o : Outcome σ} (h : o.Safe P) {s : σ} (hs : o = .next s) : P s := by
  subst hs
  exact h

theorem Outcome.safe_of_next {P : σ → Prop} {o : Outcome σ} (h : ∃ s, o = .next s ∧ P s) : o.Safe P := by
  obtain ⟨s, rfl, hs⟩ := h
  exact hs

theorem Outcome.Safe.mono {P Q : σ → Prop} {o : Outcome σ} (h : o.Safe P) (hPQ : ∀ s, P s → Q s) : o.Safe Q := by
  cases o with
  | disabled => trivial
  | fault => exact h
  | next s => exact hPQ s h

variable {c : Prop}

protected theorem Outcome.Safe.ite {P : σ → Prop} [Decidable c] {o : Outcome σ} (h : c → o.Safe P) :
    (if c then o else .disabled).Safe P := by
  by_cases hc : c
  · rw [if_pos hc]
    exact h hc
  · rw [if_neg hc]
    trivial

/-- A step that is taken under a condition. -/
theorem Outcome.ite_eq_next [Decidable c] {o : Outcome σ} {s : σ} :
    (if c then o else .disabled) = .next s ↔ c ∧ o = .next s := by
  by_cases hc : c <;> simp [hc]

protected theorem Outcome.Safe.ite_not {P : σ → Prop} [Decidable c] {o : Outcome σ} (h : ¬ c → o.Safe P) :
    (if c then .disabled else o).Safe P := by
  rw [← ite_not]
  exact .ite h

/-- A state the action leads to has the property. -/
def Outcome.Leads {σ : Type*} (P : σ → Prop) : Outcome σ → Prop
  | .next s => P s
  | _ => True

theorem Outcome.Leads.of_next {P : σ → Prop} {o : Outcome σ} (h : o.Leads P) {s : σ} (hs : o = .next s) : P s := by
  subst hs
  exact h

theorem Outcome.Leads.mono {P Q : σ → Prop} {o : Outcome σ} (h : o.Leads P) (hPQ : ∀ s, P s → Q s) : o.Leads Q := by
  cases o with
  | disabled | fault => trivial
  | next s => exact hPQ s h

protected theorem Outcome.Leads.ite {P : σ → Prop} [Decidable c] {o o' : Outcome σ} (h : c → o.Leads P)
    (h' : ¬ c → o'.Leads P) : (if c then o else o').Leads P := by
  by_cases hc : c <;> simp [hc, h, h']

/-- An action that is safe and can be taken leads to a state. -/
theorem Outcome.Safe.exists_next {P : σ → Prop} {o : Outcome σ} (h : o.Safe P) (ho : o ≠ .disabled) :
    ∃ s, o = .next s := by
  cases o with
  | disabled => exact absurd rfl ho
  | fault => exact h.elim
  | next s => exact ⟨s, rfl⟩

/-- Change the state an action leads to. -/
def Outcome.map {σ τ : Type*} (f : σ → τ) : Outcome σ → Outcome τ
  | .disabled => .disabled
  | .fault => .fault
  | .next s => .next (f s)

theorem Outcome.map_eq_next {τ : Type*} {f : σ → τ} {o : Outcome σ} {t : τ} :
    o.map f = .next t ↔ ∃ s, o = .next s ∧ f s = t := by
  cases o with
  | disabled | fault | next s => simp [map]

/-- A transition system. -/
structure System (σ α : Type*) where
  /-- The initial states. -/
  init : σ → Prop
  /-- What an action does in a state. -/
  step : σ → α → Outcome σ

namespace System

variable {σ α : Type*} (S : System σ α)

/-- The states that runs reach. -/
inductive Reach : σ → Prop where
  /-- A run of no steps. -/
  | init {s : σ} : S.init s → Reach s
  /-- One more step. -/
  | step {s t : σ} {a : α} : Reach s → S.step s a = .next t → Reach t

/-- The system that only takes the steps that pass a test on the state before and the action. -/
def guard (g : σ → α → Bool) : System σ α where
  init := S.init
  step s a := if g s a then S.step s a else .disabled

variable {S}

/-- What holds at the start and is kept by every step holds in every state a run reaches. -/
theorem Reach.invariant {P : σ → Prop} (hinit : ∀ s, S.init s → P s)
    (hstep : ∀ s a t, P s → S.step s a = .next t → P t) {s : σ} (h : S.Reach s) : P s := by
  induction h with
  | init hs => exact hinit _ hs
  | step _ hst ih => exact hstep _ _ _ ih hst

/-- What holds at the start and makes every step safe holds in every run, and no run breaks the
machine. -/
theorem Reach.safe {P : σ → Prop} (hinit : ∀ s, S.init s → P s) (hstep : ∀ s a, P s → (S.step s a).Safe P) {s : σ}
    (h : S.Reach s) : P s ∧ ∀ a, S.step s a ≠ .fault := by
  have hs : P s := h.invariant hinit fun s a t hs ht => (hstep s a hs).of_next ht
  exact ⟨hs, fun a => (hstep s a hs).ne_fault⟩

/-- A step of the guarded system is a step that passes the test. -/
theorem guard_step_eq_next {g : σ → α → Bool} {s t : σ} {a : α} :
    (S.guard g).step s a = .next t ↔ g s a = true ∧ S.step s a = .next t := by
  by_cases hg : g s a = true <;> simp [guard, hg]

theorem Reach.of_guard {g : σ → α → Bool} {s : σ} (h : (S.guard g).Reach s) : S.Reach s := by
  induction h with
  | init hs => exact .init hs
  | step _ hst ih => exact .step ih (guard_step_eq_next.mp hst).2

variable (S)

/-- Run a list of actions; a run that meets an action it cannot take, or a fault,
stops with it. -/
def replay (s : σ) : List α → Outcome σ
  | [] => .next s
  | a :: as =>
    match S.step s a with
    | .next t => replay t as
    | .disabled => .disabled
    | .fault => .fault

variable {S}

theorem Reach.replay {s t : σ} (h : S.Reach s) {as : List α} (hr : S.replay s as = .next t) :
    S.Reach t := by
  induction as generalizing s with
  | nil => cases hr; exact h
  | cons a as ih =>
    simp only [System.replay] at hr
    split at hr
    · rename_i u hu
      exact ih (.step h hu) hr
    · cases hr
    · cases hr

end System

/-! ### Memory cells -/

/-- A piece of memory from `malloc`. -/
inductive Cell (α : Type) where
  /-- Not yet allocated. -/
  | unused
  /-- Allocated. -/
  | live (a : α)
  | freed
  deriving DecidableEq

/-- A value of a function, after one is set. -/
theorem update_cases {ι β : Type} [DecidableEq ι] {f : ι → β} {a b : ι} {x y : β}
    (h : update f a x b = y) : b = a ∧ x = y ∨ b ≠ a ∧ f b = y := by
  rwa [update_apply, ite_eq_iff] at h

variable {α : Type}

/-- An allocated cell, after one is written to. -/
theorem Cell.update_live {heap : ℕ → Cell α} {a b : ℕ} {x y : α}
    (h : update heap a (.live x) b = .live y) : b = a ∧ y = x ∨ b ≠ a ∧ heap b = .live y := by
  obtain ⟨hb, hx⟩ | hold := update_cases h
  · exact .inl ⟨hb, (Cell.live.inj hx).symm⟩
  · exact .inr hold

theorem Cell.update_freed {heap : ℕ → Cell α} {a b : ℕ} {y : α}
    (h : update heap a .freed b = .live y) : b ≠ a ∧ heap b = .live y :=
  (update_cases h).resolve_left (by simp)

/-- The cell is allocated and not freed. -/
def Cell.isLive {α : Type} : Cell α → Bool
  | .live _ => true
  | _ => false

/-- Access a cell: it must be live. -/
def Cell.access {α σ : Type} (c : Cell α) (k : α → Outcome σ) : Outcome σ :=
  match c with
  | .live a => k a
  | .unused => .fault
  | .freed => .fault

variable {σ : Type}

@[simp] theorem Cell.access_live (a : α) (k : α → Outcome σ) : (Cell.live a).access k = k a := rfl

/-- An access that does not fault is to a live cell. -/
theorem Cell.access_eq_next {c : Cell α} {k : α → Outcome σ} {s : σ}
    (h : c.access k = .next s) : ∃ a, c = .live a ∧ k a = .next s := by
  cases c with
  | live a => exact ⟨a, rfl, h⟩
  | unused | freed => cases h

theorem Cell.access_ne_fault {c : Cell α} {k : α → Outcome σ} (h : ∃ a, c = .live a)
    (hk : ∀ a, c = .live a → k a ≠ .fault) : c.access k ≠ .fault := by
  obtain ⟨a, rfl⟩ := h
  exact hk a rfl

/-- The contents of a cell, seen through `f`. -/
def Cell.map {α β : Type} (f : α → β) : Cell α → Cell β
  | .unused => .unused
  | .live a => .live (f a)
  | .freed => .freed

/-! ### Counting -/

section Counting

variable {ι : Type*} {S : Finset ι} {p q : ι → Prop} [DecidablePred p] [DecidablePred q] {t : ι}

/-- One thread more: `t` comes to satisfy the property, and nothing else changes. -/
theorem card_filter_succ (ht : t ∈ S) (hp : ¬ p t) (hq : q t)
    (hne : ∀ u ∈ S, u ≠ t → (p u ↔ q u)) : (S.filter q).card = (S.filter p).card + 1 := by
  classical
  have hins : S.filter q = insert t (S.filter p) := by
    ext u
    simp only [Finset.mem_filter, Finset.mem_insert]
    obtain rfl | hu := eq_or_ne u t
    · simp [ht, hq]
    · simp only [hu, false_or]
      exact and_congr_right fun hS => (hne u hS hu).symm
  rw [hins, Finset.card_insert_of_notMem (by simp [hp])]

theorem card_filter_same (h : ∀ u ∈ S, (p u ↔ q u)) : (S.filter q).card = (S.filter p).card := by
  congr 1
  exact Finset.filter_congr fun u hu => (h u hu).symm

/-- **How a count changes** when at most thread `t` changes. -/
theorem card_filter_move (ht : t ∈ S) (hne : ∀ u ∈ S, u ≠ t → (p u ↔ q u)) :
    (S.filter q).card + (if p t then 1 else 0) = (S.filter p).card + (if q t then 1 else 0) := by
  by_cases hp : p t <;> by_cases hq : q t
  · have hall : ∀ u ∈ S, (p u ↔ q u) := fun u hu => by
      by_cases hut : u = t
      · subst hut; exact ⟨fun _ => hq, fun _ => hp⟩
      · exact hne u hu hut
    rw [card_filter_same hall, if_pos hp, if_pos hq]
  · rw [card_filter_succ ht hq hp fun u hu hut => (hne u hu hut).symm, if_pos hp, if_neg hq]
  · rw [card_filter_succ ht hp hq hne, if_neg hp, if_pos hq]
  · have hall : ∀ u ∈ S, (p u ↔ q u) := fun u hu => by
      by_cases hut : u = t
      · subst hut; exact ⟨fun h => absurd h hp, fun h => absurd h hq⟩
      · exact hne u hu hut
    rw [card_filter_same hall, if_neg hp, if_neg hq]

/-- At most one thread has a property when the count says so. -/
theorem eq_of_card_filter_le_one (h : (S.filter p).card ≤ 1) {u : ι} (ht : t ∈ S) (hu : u ∈ S)
    (hpt : p t) (hpu : p u) : t = u :=
  Finset.card_le_one.mp h t (by simp [ht, hpt]) u (by simp [hu, hpu])

/-- A thread with the property makes the count positive. -/
theorem card_filter_pos (ht : t ∈ S) (hp : p t) : 0 < (S.filter p).card :=
  Finset.card_pos.mpr ⟨t, by simp [ht, hp]⟩

end Counting

end Pintos
