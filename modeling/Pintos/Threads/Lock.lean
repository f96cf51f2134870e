import Pintos.Threads.Synch

/-!
# Locks (`threads/synch.c`)

A lock is a semaphore that starts at 1 and a `holder`, which only serves the assertions.
The holder is written outside the semaphore's atomic stretch: after `sema_down` in
`lock_acquire`, before `sema_up` in `lock_release`. So there are moments at which the lock
is taken and `holder` is still `NULL`, and moments at which it is about to be given back
and `holder` is `NULL` already; another thread may run in each of them.

## The model

`LockPc` names every point of the three functions at which a thread can lose the
processor: before and after each semaphore operation, each write of `holder` and each
assertion. `Lock.step` is the code between two such points. The semaphore is that of
`Pintos.Threads.Synch`, with its queue and its woken threads. A thread starts
`lock_acquire` or `lock_try_acquire` only outside the lock's functions, and
`lock_release` only as the holder, as the comments of the source demand; a failed
assertion is a fault.

## What is proved

`Lock.mutual_exclusion`: in every state that any interleaving reaches, at most one thread
is between its successful `sema_down` and its `sema_up`, a `holder` that is not `NULL` is
that thread, and no assertion fails. `Lock.step_turn` says how the owner changes.
-/

namespace Pintos.Threads

open Function

/-- Where a thread is in the functions of a lock. -/
inductive LockPc where
  /-- In none of them, without the lock. -/
  | outside
  /-- In `lock_acquire`, at its `sema_down`. -/
  | acquiring
  /-- In `lock_try_acquire`, at its `sema_try_down`. -/
  | trying
  /-- The semaphore is down; `holder` is not yet written. -/
  | taken
  /-- In none of them, with the lock. -/
  | holding
  /-- In `lock_release`, before `holder` is cleared. -/
  | releasing
  /-- In `lock_release`, at its `sema_up`. -/
  | cleared
  deriving DecidableEq

/-- Between the successful `sema_down` and the `sema_up`. -/
def LockPc.owns : LockPc → Bool
  | .taken | .holding | .releasing | .cleared => true
  | .outside | .acquiring | .trying => false

/-- The thread's name is in `holder`. -/
def LockPc.named : LockPc → Bool
  | .holding | .releasing => true
  | .outside | .acquiring | .trying | .taken | .cleared => false

/-- `struct lock`, with the threads that use it. -/
structure Lock (τ : Type) where
  semaphore : Users τ
  holder : Option τ
  pc : τ → LockPc

namespace Lock

variable {τ : Type}

def lockInit : Lock τ where
  semaphore := .start 1
  holder := none
  pc _ := .outside

/-- What a thread does next. -/
inductive Action (τ : Type) where
  /-- Enter `lock_acquire`. -/
  | acquire (t : τ)
  /-- Enter `lock_try_acquire`. -/
  | tryAcquire (t : τ)
  /-- A pass of the loop of `sema_down`. -/
  | down (t : τ)
  /-- `sema_try_down`. -/
  | tryDown (t : τ)
  /-- Write `holder` and return. -/
  | setHolder (t : τ)
  /-- Enter `lock_release`. -/
  | release (t : τ)
  | clearHolder (t : τ)
  /-- `sema_up`, and return. -/
  | up (t : τ)
  deriving DecidableEq

/-- The thread that acts. -/
def Action.thread : Action τ → τ
  | .acquire t | .tryAcquire t | .down t | .tryDown t | .setHolder t | .release t | .clearHolder t | .up t => t

/-- Thread `t` goes to a point. -/
def move [DecidableEq τ] (l : Lock τ) (t : τ) (pc : LockPc) : Lock τ := { l with pc := update l.pc t pc }

def lockHeldByCurrentThread [DecidableEq τ] (l : Lock τ) (t : τ) : Bool := l.holder = some t

/-- The code from one point to the next. -/
def step [DecidableEq τ] (l : Lock τ) : Action τ → Outcome (Lock τ)
  | .acquire t =>
    if l.pc t ≠ .outside then .disabled
    else if l.lockHeldByCurrentThread t then .fault
    else .next (l.move t .acquiring)
  | .tryAcquire t =>
    if l.pc t ≠ .outside then .disabled
    else if l.lockHeldByCurrentThread t then .fault
    else .next (l.move t .trying)
  | .down t =>
    if l.pc t ≠ .acquiring ∨ l.semaphore.place t = .waiting then .disabled
    else
      let (semaphore, success) := l.semaphore.down t
      .next ({ l with semaphore := semaphore }.move t (if success then .taken else .acquiring))
  | .tryDown t =>
    if l.pc t ≠ .trying then .disabled
    else
      let (semaphore, success) := l.semaphore.tryDown
      .next ({ l with semaphore := semaphore }.move t (if success then .taken else .outside))
  | .setHolder t =>
    if l.pc t ≠ .taken then .disabled else .next ({ l with holder := some t }.move t .holding)
  | .release t =>
    if l.pc t ≠ .holding then .disabled
    else if l.lockHeldByCurrentThread t then .next (l.move t .releasing)
    else .fault
  | .clearHolder t =>
    if l.pc t ≠ .releasing then .disabled else .next ({ l with holder := none }.move t .cleared)
  | .up t =>
    if l.pc t ≠ .cleared then .disabled
    else
      match l.semaphore.up with
      | .next semaphore => .next ({ l with semaphore := semaphore }.move t .outside)
      | .disabled => .disabled
      | .fault => .fault

/-- The runs of a lock. -/
def system [DecidableEq τ] : System (Lock τ) (Action τ) where
  init l := l = lockInit
  step := step

/-! ### The invariant -/

/-- Nobody has the lock. -/
structure Free (l : Lock τ) : Prop where
  value : l.semaphore.sema.value = 1
  owns : ∀ t, (l.pc t).owns = false
  holder : l.holder = none

/-- Thread `u` has the lock. -/
structure OwnedBy (l : Lock τ) (u : τ) : Prop where
  value : l.semaphore.sema.value = 0
  owns : ∀ t, (l.pc t).owns = true ↔ t = u
  holder : l.holder = if (l.pc u).named then some u else none

/-- The lock is free or one thread has it; the threads at its semaphore are in `lock_acquire`. -/
structure Inv (l : Lock τ) : Prop where
  semaphore : l.semaphore.Inv
  place : ∀ t, l.semaphore.place t ≠ .outside → l.pc t = .acquiring
  owner : Free l ∨ ∃ u, OwnedBy l u

theorem lockInit_inv : Inv (lockInit : Lock τ) where
  semaphore := Users.start_inv 1
  place _ h := absurd rfl h
  owner := .inl ⟨rfl, fun _ => rfl, rfl⟩

section Moves

variable {l : Lock τ} {t u : τ} {p : LockPc}

theorem OwnedBy.ne_of_owns (h : OwnedBy l u) (ht : (l.pc t).owns = false) : t ≠ u := by
  rintro rfl
  rw [(h.owns t).mpr rfl] at ht
  cases ht

/-- The owner is the thread at a point with the lock. -/
theorem Inv.ownedBy (h : Inv l) (ht : (l.pc t).owns = true) : OwnedBy l t := by
  rcases h.owner with hf | ⟨u, hu⟩
  · rw [hf.owns t] at ht
    cases ht
  · rwa [(hu.owns t).mp ht]

theorem Inv.holder_ne (h : Inv l) (ht : (l.pc t).owns = false) : l.holder ≠ some t := by
  rcases h.owner with hf | ⟨u, hu⟩
  · rw [hf.holder]
    exact nofun
  · rw [hu.holder]
    split
    · exact fun he => hu.ne_of_owns ht (Option.some.inj he).symm
    · exact nofun

theorem Inv.holder_eq (h : Inv l) (ht : (l.pc t).owns = true) (hn : (l.pc t).named = true) : l.holder = some t := by
  rw [(h.ownedBy ht).holder, if_pos hn]

/-- A thread that is not in `lock_acquire` is not at the semaphore. -/
theorem Inv.place_outside (h : Inv l) (ht : l.pc t ≠ .acquiring) : l.semaphore.place t = .outside :=
  not_not.mp fun hp => ht (h.place t hp)

theorem Inv.free_of_value (h : Inv l) (hv : l.semaphore.sema.value ≠ 0) : Free l := by
  rcases h.owner with hf | ⟨u, hu⟩
  · exact hf
  · exact absurd hu.value hv

variable [DecidableEq τ]

@[simp] theorem move_pc_self : (l.move t p).pc t = p := update_self ..

theorem move_pc_of_ne (h : u ≠ t) : (l.move t p).pc u = l.pc u := update_of_ne h ..

/-- A thread without the lock that goes to a point without the lock changes nothing. -/
theorem Free.move (h : Free l) (hp : p.owns = false) : Free (l.move t p) := by
  refine ⟨h.value, ?_, h.holder⟩
  exact (forall_update_iff l.pc fun _ q => q.owns = false).mpr ⟨hp, fun r _ => h.owns r⟩

theorem OwnedBy.move_other (h : OwnedBy l u) (ht : (l.pc t).owns = false) (hp : p.owns = false) :
    OwnedBy (l.move t p) u := by
  have htu := h.ne_of_owns ht
  refine ⟨h.value, ?_, ?_⟩
  · exact (forall_update_iff l.pc fun r q => q.owns = true ↔ r = u).mpr ⟨by simp [hp, htu], fun r _ => h.owns r⟩
  · rw [move_pc_of_ne htu.symm]
    exact h.holder

/-- The owner goes on, still with the lock; `holder` follows. -/
theorem OwnedBy.move_self (h : OwnedBy l u) (hp : p.owns = true) :
    OwnedBy ({ l with holder := if p.named then some u else none }.move u p) u := by
  refine ⟨h.value, ?_, ?_⟩
  · exact (forall_update_iff l.pc fun r q => q.owns = true ↔ r = u).mpr ⟨by simp [hp], fun r _ => h.owns r⟩
  · rw [move_pc_self]
    rfl

/-- Whoever is at the semaphore stays in `lock_acquire` when a thread that is not there moves. -/
theorem Inv.place_move (h : Inv l) (ht : l.semaphore.place t = .outside) (r : τ)
    (hr : l.semaphore.place r ≠ .outside) : (l.move t p).pc r = .acquiring := by
  have hrt : r ≠ t := fun he => hr (he ▸ ht)
  rw [move_pc_of_ne hrt, h.place r hr]

/-- A step between points without the lock. -/
theorem Inv.move (h : Inv l) (ht : l.pc t ≠ .acquiring) (hno : (l.pc t).owns = false) (hp : p.owns = false) :
    Inv (l.move t p) where
  semaphore := h.semaphore
  place := h.place_move (h.place_outside ht)
  owner := h.owner.imp (·.move hp) fun ⟨u, hu⟩ => ⟨u, hu.move_other hno hp⟩

theorem Inv.move_owner (h : Inv l) (ht : (l.pc t).owns = true) (hp : p.owns = true) :
    Inv ({ l with holder := if p.named then some t else none }.move t p) where
  semaphore := h.semaphore
  place := h.place_move (h.place_outside fun he => by rw [he] at ht; cases ht)
  owner := .inr ⟨t, (h.ownedBy ht).move_self hp⟩

end Moves

/-! ### The semaphore's steps -/

section Steps

variable [DecidableEq τ] {l : Lock τ} {t : τ}

theorem Free.take (h : Free l) (semaphore : Users τ) (hv : semaphore.sema.value = l.semaphore.sema.value - 1) :
    OwnedBy ({ l with semaphore := semaphore }.move t .taken) t := by
  refine ⟨?_, ?_, ?_⟩
  · show semaphore.sema.value = 0
    rw [hv, h.value]
    rfl
  · refine (forall_update_iff l.pc fun r q => q.owns = true ↔ r = t).mpr ⟨by simp [LockPc.owns], fun r hr => ?_⟩
    simp [h.owns r, hr]
  · rw [move_pc_self]
    exact h.holder

theorem Inv.down (h : Inv l) (ht : l.pc t = .acquiring) (hw : l.semaphore.place t ≠ .waiting) :
    Inv ({ l with semaphore := (l.semaphore.down t).1 }.move t
      (if (l.semaphore.down t).2 then .taken else .acquiring)) := by
  have hsema := h.semaphore.down hw
  by_cases hv : l.semaphore.sema.value = 0
  · rw [Users.down_zero hv] at hsema ⊢
    refine ⟨hsema, fun r hr => ?_, ?_⟩
    · obtain rfl | hrt := eq_or_ne r t
      · exact move_pc_self
      · rw [move_pc_of_ne hrt]
        exact h.place r fun he => hr ((update_of_ne hrt ..).trans he)
    · rcases h.owner with hf | ⟨u, hu⟩
      · exact .inl ⟨hf.value, (hf.move rfl).owns, hf.holder⟩
      · have hmove := hu.move_other (p := .acquiring) (t := t) (by rw [ht]; rfl) rfl
        exact .inr ⟨u, hu.value, hmove.owns, hmove.holder⟩
  · rw [Users.down_pos hv] at hsema ⊢
    refine ⟨hsema, fun r hr => ?_, .inr ⟨t, (h.free_of_value hv).take _ rfl⟩⟩
    have hrt : r ≠ t := fun he => hr (by rw [he]; exact update_self ..)
    rw [move_pc_of_ne hrt]
    exact h.place r fun he => hr ((update_of_ne hrt ..).trans he)

theorem Inv.tryDown (h : Inv l) (ht : l.pc t = .trying) :
    Inv ({ l with semaphore := l.semaphore.tryDown.1 }.move t
      (if l.semaphore.tryDown.2 then .taken else .outside)) := by
  have hplace := h.place_outside (t := t) (by rw [ht]; exact nofun)
  have hsema := h.semaphore.tryDown
  by_cases hv : l.semaphore.sema.value = 0
  · rw [Users.tryDown_zero hv]
    exact h.move (by rw [ht]; exact nofun) (by rw [ht]; rfl) rfl
  · rw [Users.tryDown_pos hv] at hsema ⊢
    exact ⟨hsema, h.place_move hplace, .inr ⟨t, (h.free_of_value hv).take _ rfl⟩⟩

/-- `sema_up` in `lock_release`: the value goes from 0 to 1, and the lock is free. -/
theorem Inv.up (h : Inv l) (ht : l.pc t = .cleared) : ∃ semaphore, l.semaphore.up = .next semaphore ∧
    Inv ({ l with semaphore := semaphore }.move t .outside) := by
  have hown := h.ownedBy (t := t) (by rw [ht]; rfl)
  have hplace := h.place_outside (t := t) (by rw [ht]; exact nofun)
  obtain ⟨v, hv, hinv⟩ := h.semaphore.up
  obtain ⟨hvalue, -, hout⟩ := Users.up_effect hv
  have howns : ∀ r, ((l.move t .outside).pc r).owns = false :=
    (forall_update_iff l.pc fun _ q => q.owns = false).mpr
      ⟨rfl, fun r hr => Bool.eq_false_iff.mpr fun ho => hr ((hown.owns r).mp ho)⟩
  refine ⟨v, hv, hinv, fun r hr => ?_, .inl ⟨?_, howns, ?_⟩⟩
  · exact h.place_move hplace r fun he => hr ((hout r).mpr he)
  · show v.sema.value = 1
    rw [hvalue, hown.value]
    rfl
  · rw [hown.holder, ht]
    rfl

theorem step_pc_of_ne {a : Action τ} {m : Lock τ} (h : l.step a = .next m) {r : τ} (hr : r ≠ a.thread) :
    m.pc r = l.pc r := by
  cases a with
  | up t =>
    simp only [Lock.step] at h
    split at h
    · cases h
    · split at h <;> cases h
      exact move_pc_of_ne hr
  | _ t =>
    simp only [Lock.step] at h
    repeat' split at h
    all_goals cases h
    all_goals exact move_pc_of_ne hr

/-- **Every step keeps the invariant**, and none fails an assertion. -/
theorem Inv.step (h : Inv l) (a : Action τ) : (l.step a).Safe Inv := by
  cases a with
  | acquire t | tryAcquire t =>
    refine .ite_not fun ht => ?_
    rw [not_not] at ht
    have hne := h.holder_ne (t := t) (by rw [ht]; rfl)
    rw [if_neg (by simp [lockHeldByCurrentThread, hne])]
    exact h.move (by simp [ht]) (by rw [ht]; rfl) rfl
  | down t =>
    refine .ite_not fun ht => ?_
    obtain ⟨hpc, hw⟩ := not_or.mp ht
    exact h.down (not_not.mp hpc) hw
  | tryDown t => exact .ite_not fun ht => h.tryDown (not_not.mp ht)
  | setHolder t =>
    refine .ite_not fun ht => ?_
    exact h.move_owner (p := .holding) (by rw [not_not.mp ht]; rfl) rfl
  | release t =>
    refine .ite_not fun ht => ?_
    rw [not_not] at ht
    have heq := h.holder_eq (t := t) (by rw [ht]; rfl) (by rw [ht]; rfl)
    have hinv := h.move_owner (t := t) (p := .releasing) (by rw [ht]; rfl) rfl
    have hself : ({ l with holder := if LockPc.releasing.named then some t else none } : Lock τ) = l := by
      show { l with holder := some t } = l
      rw [← heq]
    rw [if_pos (by simp [lockHeldByCurrentThread, heq])]
    rwa [hself] at hinv
  | clearHolder t =>
    refine .ite_not fun ht => ?_
    exact h.move_owner (p := .cleared) (by rw [not_not.mp ht]; rfl) rfl
  | up t =>
    refine .ite_not fun ht => ?_
    obtain ⟨v, hv, hinv⟩ := h.up (not_not.mp ht)
    rw [hv]
    exact hinv

end Steps

/-! ### All runs -/

variable [DecidableEq τ]

theorem reach_safe {l : Lock τ} (h : system.Reach l) : Inv l ∧ ∀ a, l.step a ≠ .fault :=
  h.safe (fun _ he => he ▸ lockInit_inv) fun _ a hl => hl.step a

/-- **Mutual exclusion.** In every interleaving at most one thread is between its
successful acquire and the `sema_up` of its release, whenever `holder` is not `NULL` it is
that thread, and no assertion fails. -/
theorem mutual_exclusion {l : Lock τ} (h : system.Reach l) :
    (∀ t u, (l.pc t).owns = true → (l.pc u).owns = true → t = u) ∧
    (∀ t, l.holder = some t → (l.pc t).owns = true) ∧
    ∀ a, l.step a ≠ .fault := by
  obtain ⟨hinv, hfault⟩ := reach_safe h
  refine ⟨fun t u ht hu => ((hinv.ownedBy hu).owns t).mp ht, fun t ht => ?_, hfault⟩
  by_contra hno
  exact hinv.holder_ne (Bool.eq_false_iff.mpr hno) ht

/-- A run in which thread 2 fails to get the lock while thread 1 has it and has not yet
written `holder`. -/
theorem mutual_exclusion_window : ∃ l : Lock ℕ, l.holder = none ∧ (l.pc 1).owns = true ∧
    (∀ t, (l.pc t).owns = true → t = 1) := by
  have hrun : system.replay (lockInit : Lock ℕ) [.acquire 1, .acquire 2, .down 1, .down 2] = .next _ := rfl
  exact ⟨_, rfl, rfl, fun t ht => (mutual_exclusion (.replay (.init rfl) hrun)).1 t 1 ht rfl⟩

/-! ### The owner -/

/-- How the owner of a lock changes when thread `t` takes a step. -/
inductive Turn (t : τ) : Option τ → Option τ → Prop where
  | same (o : Option τ) : Turn t o o
  | take : Turn t none (some t)
  | give : Turn t (some t) none

omit [DecidableEq τ] in
theorem Inv.owner_exists {l : Lock τ} (h : Inv l) : ∃ o, ∀ t, (l.pc t).owns = true ↔ o = some t := by
  rcases h.owner with hf | ⟨u, hu⟩
  · exact ⟨none, fun t => by simp [hf.owns t]⟩
  · exact ⟨some u, fun t => by simp [hu.owns t, eq_comm]⟩

/-- **Seen from outside a lock is its owner**: a thread takes it when nobody has it, and gives it
back. -/
theorem step_turn {l m : Lock τ} {a : Action τ} (h : system.Reach l) (hstep : l.step a = .next m) : ∃ o o',
    (∀ t, (l.pc t).owns = true ↔ o = some t) ∧ (∀ t, (m.pc t).owns = true ↔ o' = some t) ∧ Turn a.thread o o' := by
  have hinv := (reach_safe h).1
  obtain ⟨o, ho⟩ := hinv.owner_exists
  obtain ⟨o', ho'⟩ := ((hinv.step a).of_next hstep).owner_exists
  refine ⟨o, o', ho, ho', ?_⟩
  -- only the thread that takes the step begins or ceases to be the owner
  have hsame : ∀ t, t ≠ a.thread → (o' = some t ↔ o = some t) := fun t ht => by
    rw [← ho, ← ho', step_pc_of_ne hstep ht]
  rcases o with _ | u <;> rcases o' with _ | v
  · exact .same none
  · obtain rfl : v = a.thread := by_contra fun hv => by cases (hsame v hv).mp rfl
    exact .take
  · obtain rfl : u = a.thread := by_contra fun hu => by cases (hsame u hu).mpr rfl
    exact .give
  · have hu := hsame u
    have hv := hsame v
    obtain rfl : u = v := by grind
    exact .same _

end Lock

end Pintos.Threads
