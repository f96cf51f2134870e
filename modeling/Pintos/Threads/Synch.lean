import Pintos.Basis.Transition
import Mathlib.Tactic.Ring

/-!
# Semaphores (`threads/synch.c`)

A semaphore is an `unsigned` value and the list of the threads that wait at it.
`sema_down` is a loop: it tests the value, and at 0 it queues the thread and blocks it;
a thread that `sema_up` took off the queue does not get the unit, it tests again, and
another thread may have been faster. Every pass of the loop, every `sema_try_down` and
every `sema_up` runs with interrupts off, so each of them is one step.

## The model

`semaDown` is one pass of the loop, `semaTryDown` and `semaUp` are the functions of the
source; the value is a `UInt32`, so `sema_up` wraps as the C code does. `Users` is one
semaphore with the threads that use it: a thread is outside, it waits on the list, or it
was taken off the list and has not tested again. The counters are for the statements
only. Any type of threads will do, and any order of steps: who runs next is not the
semaphore's business. A `sema_up` names no thread, since interrupt handlers call it too.

## What is proved

In every run (`Users.semaphore_counts`) the value and the counters agree, there is no down
at value 0, and **no wake-up is lost**: while a thread waits, every unit of the value has a
woken thread that will test for it. `thread_unblock` always gets a blocked thread. The
value itself is exact only as long as no `sema_up` finds the largest `unsigned`
(`Users.sema_up_wraps`).
-/

namespace Pintos.Threads

open Function

structure Semaphore (τ : Type) where
  value : UInt32
  waiters : List τ
  deriving DecidableEq

section Operations

variable {τ : Type}

def semaInit (value : UInt32) : Semaphore τ where
  value := value
  waiters := []

/-- One pass of the loop of `sema_down` by thread `t`. With `true` the thread leaves the
loop and has its unit; with `false` it is on the list and blocks. -/
def semaDown (sema : Semaphore τ) (t : τ) : Semaphore τ × Bool :=
  if sema.value = 0 then ({ sema with waiters := sema.waiters ++ [t] }, false)
  else ({ sema with value := sema.value - 1 }, true)

def semaTryDown (sema : Semaphore τ) : Semaphore τ × Bool :=
  if 0 < sema.value then ({ sema with value := sema.value - 1 }, true) else (sema, false)

/-- `sema_up`, with the thread it takes off the list. -/
def semaUp (sema : Semaphore τ) : Semaphore τ × Option τ :=
  match sema.waiters with
  | [] => ({ sema with value := sema.value + 1 }, none)
  | t :: ts => ({ value := sema.value + 1, waiters := ts }, some t)

variable {sema : Semaphore τ}

theorem semaDown_zero (h : sema.value = 0) (t : τ) :
    semaDown sema t = ({ sema with waiters := sema.waiters ++ [t] }, false) := if_pos h

theorem semaDown_pos (h : sema.value ≠ 0) (t : τ) :
    semaDown sema t = ({ sema with value := sema.value - 1 }, true) := if_neg h

theorem uint32_pos_iff {v : UInt32} : 0 < v ↔ v ≠ 0 := by
  rw [UInt32.lt_iff_toNat_lt, ← UInt32.toNat_inj.ne, UInt32.toNat_zero]
  omega

theorem semaTryDown_pos (h : sema.value ≠ 0) :
    semaTryDown sema = ({ sema with value := sema.value - 1 }, true) := if_pos (uint32_pos_iff.mpr h)

theorem semaTryDown_zero (h : sema.value = 0) : semaTryDown sema = (sema, false) :=
  if_neg (by simp [h])

theorem semaUp_nil (h : sema.waiters = []) : semaUp sema = ({ sema with value := sema.value + 1 }, none) := by
  simp only [semaUp]
  split
  · rfl
  · rename_i hw
    rw [h] at hw
    cases hw

variable {t : τ}

theorem semaUp_cons {ts : List τ} (h : sema.waiters = t :: ts) :
    semaUp sema = ({ value := sema.value + 1, waiters := ts }, some t) := by
  simp only [semaUp]
  split
  · rename_i hw
    rw [h] at hw
    cases hw
  · rename_i hw
    rw [h] at hw
    cases hw
    rfl

theorem toNat_pred {v : UInt32} (h : v ≠ 0) : (v - 1).toNat + 1 = v.toNat := by
  have hpos : 1 ≤ v.toNat := by
    rw [← UInt32.toNat_inj.ne, UInt32.toNat_zero] at h
    omega
  have hle : (1 : UInt32) ≤ v := UInt32.le_iff_toNat_le.mpr hpos
  rw [UInt32.toNat_sub_of_le _ _ hle, UInt32.toNat_one]
  omega

/-- A unit more: at the largest value it wraps to 0. -/
theorem toNat_succ (v : UInt32) :
    (v + 1).toNat + (if v + 1 = 0 then 2 ^ 32 else 0) = v.toNat + 1 := by
  have hlt := v.toNat_lt
  have hadd : (v + 1).toNat = (v.toNat + 1) % 2 ^ 32 := by rw [UInt32.toNat_add, UInt32.toNat_one]
  by_cases hmax : v.toNat + 1 = 2 ^ 32
  · have hz : v + 1 = 0 := UInt32.toNat_inj.mp (by rw [hadd, hmax, UInt32.toNat_zero]; rfl)
    rw [if_pos hz, hz, UInt32.toNat_zero, hmax, Nat.zero_add]
  · have hval : (v + 1).toNat = v.toNat + 1 := by rw [hadd]; exact Nat.mod_eq_of_lt (by omega)
    have hz : v + 1 ≠ 0 := fun h => by
      rw [h, UInt32.toNat_zero] at hval
      omega
    rw [if_neg hz, hval, Nat.add_zero]

end Operations

/-! ### A semaphore and its threads -/

/-- Where a thread is, as one semaphore sees it. -/
inductive Place where
  /-- Not in `sema_down`. -/
  | outside
  /-- Blocked, on the list. -/
  | waiting
  /-- Taken off the list; it has not tested the value again. -/
  | woken
  deriving DecidableEq

/-- A semaphore with the threads that use it. -/
structure Users (τ : Type) where
  sema : Semaphore τ
  place : τ → Place
  /-- The calls of `sema_up` that are done. -/
  ups : ℕ
  /-- The calls of `sema_down` and the successful ones of `sema_try_down` that are done. -/
  downs : ℕ
  /-- The calls of `sema_up` that found the largest value. -/
  wraps : ℕ

namespace Users

variable {τ : Type}

/-- A fresh semaphore that nobody uses yet. -/
def start (value : UInt32) : Users τ where
  sema := semaInit value
  place _ := .outside
  ups := 0
  downs := 0
  wraps := 0

/-- What threads, and interrupt handlers, do with a semaphore. -/
inductive Action (τ : Type) where
  /-- A pass of the loop of `sema_down`. -/
  | down (t : τ)
  /-- `sema_try_down`. -/
  | tryDown (t : τ)
  /-- `sema_up`. -/
  | up
  deriving DecidableEq

/-- A pass of the loop of `sema_down`: the first one, or one after the thread was woken. -/
def down [DecidableEq τ] (u : Users τ) (t : τ) : Users τ × Bool :=
  let (sema, success) := semaDown u.sema t
  ({ u with
      sema := sema
      place := update u.place t (if success then .outside else .waiting)
      downs := if success then u.downs + 1 else u.downs }, success)

/-- `sema_try_down`. -/
def tryDown (u : Users τ) : Users τ × Bool :=
  let (sema, success) := semaTryDown u.sema
  ({ u with sema := sema, downs := if success then u.downs + 1 else u.downs }, success)

/-- `sema_up`. `thread_unblock` asserts that the thread it gets is blocked. -/
def up [DecidableEq τ] (u : Users τ) : Outcome (Users τ) :=
  let (sema, popped) := semaUp u.sema
  let v : Users τ :=
    { u with sema := sema, ups := u.ups + 1, wraps := if sema.value = 0 then u.wraps + 1 else u.wraps }
  match popped with
  | none => .next v
  | some t =>
    if u.place t = .waiting then .next { v with place := update u.place t .woken } else .fault

/-- One step. A waiting thread takes none, and a thread in the loop of `sema_down` can
only go on with it. -/
def step [DecidableEq τ] (u : Users τ) : Action τ → Outcome (Users τ)
  | .down t => if u.place t = .waiting then .disabled else .next (u.down t).1
  | .tryDown t => if u.place t = .outside then .next u.tryDown.1 else .disabled
  | .up => u.up

/-- The runs of a semaphore with an initial value. -/
def system [DecidableEq τ] (value : UInt32) : System (Users τ) (Action τ) where
  init u := u = start value
  step := step

/-! ### The invariant -/

/-- The list and the places agree, and a unit that a waiting thread could have is one
that a woken thread will test for. -/
structure Inv (u : Users τ) : Prop where
  mem_waiters : ∀ t, t ∈ u.sema.waiters ↔ u.place t = .waiting
  nodup : u.sema.waiters.Nodup
  woken : ∃ W : Finset τ, (∀ t, t ∈ W ↔ u.place t = .woken) ∧
    (u.sema.waiters ≠ [] → u.sema.value.toNat ≤ W.card)

/-- The units given and taken. -/
def Balance (value : UInt32) (u : Users τ) : Prop :=
  value.toNat + u.ups = u.downs + u.sema.value.toNat + 2 ^ 32 * u.wraps

theorem start_inv (value : UInt32) : Inv (start value : Users τ) where
  mem_waiters t := by simp [start, semaInit]
  nodup := List.nodup_nil
  woken := ⟨∅, by simp [start], fun h => absurd rfl h⟩

theorem start_balance (value : UInt32) : Balance value (start value : Users τ) := by
  simp [Balance, start, semaInit]

theorem tryDown_zero {u : Users τ} (h : u.sema.value = 0) : u.tryDown = (u, false) := by
  rw [tryDown, semaTryDown_zero h]
  rfl

theorem tryDown_pos {u : Users τ} (h : u.sema.value ≠ 0) :
    u.tryDown = ({ u with sema := { u.sema with value := u.sema.value - 1 }, downs := u.downs + 1 }, true) := by
  rw [tryDown, semaTryDown_pos h]
  rfl

theorem Inv.tryDown {u : Users τ} (h : u.Inv) : u.tryDown.1.Inv := by
  by_cases hv : u.sema.value = 0
  · rw [tryDown_zero hv]
    exact h
  · rw [tryDown_pos hv]
    obtain ⟨W, hW, hle⟩ := h.woken
    refine ⟨h.mem_waiters, h.nodup, W, hW, fun hne => ?_⟩
    have hval := toNat_pred hv
    have := hle hne
    show (u.sema.value - 1).toNat ≤ W.card
    omega

variable [DecidableEq τ]

theorem down_zero {u : Users τ} (h : u.sema.value = 0) (t : τ) :
    u.down t = ({ u with sema := { u.sema with waiters := u.sema.waiters ++ [t] }
                         place := update u.place t .waiting }, false) := by
  rw [down, semaDown_zero h]
  rfl

theorem down_pos {u : Users τ} (h : u.sema.value ≠ 0) (t : τ) :
    u.down t = ({ u with sema := { u.sema with value := u.sema.value - 1 }
                         place := update u.place t .outside
                         downs := u.downs + 1 }, true) := by
  rw [down, semaDown_pos h]
  rfl

theorem up_nil {u : Users τ} (h : u.sema.waiters = []) :
    u.up = .next { u with sema := { u.sema with value := u.sema.value + 1 }
                          ups := u.ups + 1
                          wraps := if u.sema.value + 1 = 0 then u.wraps + 1 else u.wraps } := by
  rw [up, semaUp_nil h]

theorem up_cons {u : Users τ} {ts : List τ} (h : u.sema.waiters = t :: ts) (ht : u.place t = .waiting) :
    u.up = .next { sema := { value := u.sema.value + 1, waiters := ts }
                   place := update u.place t .woken
                   ups := u.ups + 1
                   downs := u.downs
                   wraps := if u.sema.value + 1 = 0 then u.wraps + 1 else u.wraps } := by
  rw [up, semaUp_cons h]
  exact if_pos ht

variable {v : Users τ}

/-- `sema_up` adds a unit, and brings no thread into `sema_down` and none out of it. -/
theorem up_effect {u : Users τ} (h : u.up = .next v) :
    v.sema.value = u.sema.value + 1 ∧ v.ups = u.ups + 1 ∧ ∀ r, v.place r = .outside ↔ u.place r = .outside := by
  cases hw : u.sema.waiters with
  | nil =>
    cases (up_nil hw).symm.trans h
    exact ⟨rfl, rfl, fun _ => Iff.rfl⟩
  | cons t ts =>
    by_cases ht : u.place t = .waiting
    · cases (up_cons hw ht).symm.trans h
      refine ⟨rfl, rfl, fun r => ?_⟩
      obtain rfl | hr := eq_or_ne r t
      · simp [ht]
      · simp [hr]
    · rw [up, semaUp_cons hw] at h
      cases (if_neg ht).symm.trans h

theorem Inv.down {u : Users τ} (h : u.Inv) (ht : u.place t ≠ .waiting) : (u.down t).1.Inv := by
  have hnot : t ∉ u.sema.waiters := fun hm => ht ((h.mem_waiters t).mp hm)
  obtain ⟨W, hW, hle⟩ := h.woken
  by_cases hv : u.sema.value = 0
  · rw [down_zero hv]
    refine ⟨fun r => ?_, ?_, W.erase t, fun r => ?_, fun _ => ?_⟩
    · by_cases hr : r = t
      · subst hr; simp
      · simp [hr, h.mem_waiters r]
    · exact List.concat_eq_append ▸ List.Nodup.concat hnot h.nodup
    · by_cases hr : r = t
      · subst hr; simp
      · simp [hr, hW r]
    · simp [hv]
  · rw [down_pos hv]
    refine ⟨fun r => ?_, h.nodup, W.erase t, fun r => ?_, fun hne => ?_⟩
    · by_cases hr : r = t
      · subst hr; simp [hnot]
      · simp [hr, h.mem_waiters r]
    · by_cases hr : r = t
      · subst hr; simp
      · simp [hr, hW r]
    · have hval := toNat_pred hv
      have hcard := Finset.pred_card_le_card_erase (s := W) (a := t)
      have := hle hne
      show (u.sema.value - 1).toNat ≤ (W.erase t).card
      omega

/-- `sema_up` meets its assertion and keeps the invariant. -/
theorem Inv.up {u : Users τ} (h : u.Inv) : ∃ v, u.up = .next v ∧ v.Inv := by
  obtain ⟨W, hW, hle⟩ := h.woken
  cases hw : u.sema.waiters with
  | nil =>
    refine ⟨_, up_nil hw, h.mem_waiters, h.nodup, W, hW, fun hne => absurd hw hne⟩
  | cons t ts =>
    have ht : u.place t = .waiting := (h.mem_waiters t).mp (by simp [hw])
    have hnd : (t :: ts).Nodup := hw ▸ h.nodup
    obtain ⟨hts, hnd⟩ := List.nodup_cons.mp hnd
    refine ⟨_, up_cons hw ht, fun r => ?_, hnd, insert t W, fun r => ?_, fun _ => ?_⟩
    · by_cases hr : r = t
      · subst hr; simp [hts]
      · have hmem := h.mem_waiters r
        rw [hw, List.mem_cons] at hmem
        simpa [hr] using hmem
    · by_cases hr : r = t
      · subst hr; simp
      · simp [hr, hW r]
    · have hnW : t ∉ W := fun hm => by
        rw [hW, ht] at hm
        cases hm
      have hval := toNat_succ u.sema.value
      have := hle (by simp [hw])
      rw [Finset.card_insert_of_notMem hnW]
      show (u.sema.value + 1).toNat ≤ W.card + 1
      omega

variable {a : Action τ}

theorem Inv.step {u : Users τ} (h : u.Inv) (hs : u.step a = .next v) : v.Inv := by
  cases a with
  | down t =>
    simp only [Users.step] at hs
    split at hs
    · cases hs
    · rename_i ht
      cases hs
      exact h.down ht
  | tryDown t =>
    obtain ⟨-, hs⟩ := Outcome.ite_eq_next.mp hs
    cases hs
    exact h.tryDown
  | up =>
    obtain ⟨w, hw, hinv⟩ := h.up
    cases hw.symm.trans hs
    exact hinv

/-! ### The balance -/

theorem Balance.step {value : UInt32} {u : Users τ} (h : Balance value u)
    (hs : u.step a = .next v) : Balance value v := by
  unfold Balance at h ⊢
  have hdown : u.sema.value ≠ 0 →
      value.toNat + u.ups = u.downs + 1 + (u.sema.value - 1).toNat + 2 ^ 32 * u.wraps := fun hv => by
    have hval := toNat_pred hv
    omega
  cases a with
  | down t =>
    simp only [Users.step] at hs
    split at hs
    · cases hs
    · cases hs
      by_cases hv : u.sema.value = 0
      · rw [down_zero hv]
        exact h
      · rw [down_pos hv]
        exact hdown hv
  | tryDown t =>
    obtain ⟨-, hs⟩ := Outcome.ite_eq_next.mp hs
    cases hs
    by_cases hv : u.sema.value = 0
    · rw [tryDown_zero hv]
      exact h
    · rw [tryDown_pos hv]
      exact hdown hv
  | up =>
    have hval := toNat_succ u.sema.value
    have key : value.toNat + (u.ups + 1) = u.downs + (u.sema.value + 1).toNat +
        2 ^ 32 * (if u.sema.value + 1 = 0 then u.wraps + 1 else u.wraps) := by
      split at hval <;> rename_i hz
      · rw [if_pos hz]
        omega
      · rw [if_neg hz]
        omega
    cases hw : u.sema.waiters with
    | nil =>
      cases (up_nil hw).symm.trans hs
      exact key
    | cons t ts =>
      by_cases ht : u.place t = .waiting
      · cases (up_cons hw ht).symm.trans hs
        exact key
      · rw [Users.step, Users.up, semaUp_cons hw] at hs
        cases (if_neg ht).symm.trans hs

/-! ### All runs -/

section Runs

variable {value : UInt32} {u : Users τ}

theorem reach_inv (h : (system value).Reach u) : u.Inv := by
  refine h.invariant ?_ fun _ _ _ hinv hs => hinv.step hs
  rintro _ rfl
  exact start_inv value

theorem reach_balance (h : (system value).Reach u) : Balance value u := by
  refine h.invariant ?_ fun _ _ _ hinv hs => hinv.step hs
  rintro _ rfl
  exact start_balance value

theorem step_downs (hs : u.step a = .next v) (hne : v.downs ≠ u.downs) :
    u.sema.value ≠ 0 ∧ v.sema.value = u.sema.value - 1 ∧ v.downs = u.downs + 1 := by
  cases a with
  | down t =>
    simp only [Users.step] at hs
    split at hs
    · cases hs
    · cases hs
      by_cases hv : u.sema.value = 0
      · rw [down_zero hv] at hne
        exact absurd rfl hne
      · rw [down_pos hv]
        exact ⟨hv, rfl, rfl⟩
  | tryDown t =>
    obtain ⟨-, hs⟩ := Outcome.ite_eq_next.mp hs
    cases hs
    by_cases hv : u.sema.value = 0
    · rw [tryDown_zero hv] at hne
      exact absurd rfl hne
    · rw [tryDown_pos hv]
      exact ⟨hv, rfl, rfl⟩
  | up =>
    cases hw : u.sema.waiters with
    | nil =>
      cases (up_nil hw).symm.trans hs
      exact absurd rfl hne
    | cons t ts =>
      by_cases ht : u.place t = .waiting
      · cases (up_cons hw ht).symm.trans hs
        exact absurd rfl hne
      · rw [Users.step, Users.up, semaUp_cons hw] at hs
        cases (if_neg ht).symm.trans hs

/-- No step takes `value` below 0, and `thread_unblock` finds its thread blocked. -/
theorem step_ne_fault (h : u.Inv) (a : Action τ) : u.step a ≠ .fault := by
  cases a with
  | down t | tryDown t =>
    simp only [Users.step]
    split <;> exact nofun
  | up =>
    obtain ⟨v, hv, -⟩ := h.up
    rw [Users.step, hv]
    exact nofun

/-- **A semaphore counts, and loses no wake-up**, whoever uses it in whatever order. The
value is the initial one with the ups added and the downs taken off, but for the ups that
found the largest `unsigned`; there is no down at value 0; and while a thread waits, every
unit there is has a woken thread that will test for it. -/
theorem semaphore_counts (h : (system value).Reach u) :
    value.toNat + u.ups = u.downs + u.sema.value.toNat + 2 ^ 32 * u.wraps ∧
    (∀ a v, u.step a = .next v → v.downs ≠ u.downs →
      u.sema.value ≠ 0 ∧ v.sema.value = u.sema.value - 1 ∧ v.downs = u.downs + 1) ∧
    (∃ W : Finset τ, (∀ t, t ∈ W ↔ u.place t = .woken) ∧
      ((∃ t, u.place t = .waiting) → u.sema.value.toNat ≤ W.card)) ∧
    (∀ t, t ∈ u.sema.waiters ↔ u.place t = .waiting) ∧
    ∀ a, u.step a ≠ .fault := by
  have hinv := reach_inv h
  obtain ⟨W, hW, hle⟩ := hinv.woken
  refine ⟨reach_balance h, fun a v hs hne => step_downs hs hne, ⟨W, hW, fun ⟨t, ht⟩ => hle ?_⟩,
    hinv.mem_waiters, step_ne_fault hinv⟩
  exact List.ne_nil_of_mem ((hinv.mem_waiters t).mpr ht)

/-- A run in which thread 2 is faster than the thread that was woken, and thread 1 queues again. -/
theorem semaphore_counts_barging : ∃ u : Users ℕ,
    u.sema = { value := 0, waiters := [1] } ∧ 0 + u.ups = u.downs + 0 + 2 ^ 32 * u.wraps := by
  have hrun : (system 0).replay (start 0 : Users ℕ) [.down 1, .up, .down 2, .down 1] = .next _ := rfl
  exact ⟨_, rfl, (semaphore_counts (.replay (.init rfl) hrun)).1⟩

/-- One `sema_up` of a semaphore that starts at the largest `unsigned` makes its value 0. -/
theorem sema_up_wraps : ∃ u : Users ℕ, (system 4294967295).Reach u ∧ u.ups = 1 ∧ u.downs = 0 ∧
    u.sema.value.toNat ≠ (4294967295 : UInt32).toNat + u.ups - u.downs := by
  have hrun : (system 4294967295).replay (start 4294967295 : Users ℕ) [.up] = .next _ := rfl
  refine ⟨_, .replay (.init rfl) hrun, rfl, rfl, ?_⟩
  decide

end Runs

end Users

end Pintos.Threads
