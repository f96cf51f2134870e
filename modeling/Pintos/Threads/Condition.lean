import Pintos.Threads.Lock

/-!
# Condition variables (`threads/synch.c`)

A thread that calls `cond_wait` queues a record with a semaphore of its own, gives the
lock back, downs its semaphore and takes the lock again. Those are four steps, and other
threads run between them; `cond_signal` takes the oldest record off the queue and ups its
semaphore, which again are two steps.

## The model

The lock is that of `Pintos.Threads.Lock`, with all its points. A record is on the stack
of the thread that waits: it lives from its queuing until `cond_wait` returns, and an
access to it at any other time is a fault. The queue itself is only touched by threads
that have the lock, so taking a record off or putting one on is one step. Threads call
the three functions only while they hold the lock. `owner`, `popped`, `released` and
`calls` are history, for the statements: who queued a record, which records were taken
off, which were upped, and what each finished call of `cond_signal` and `cond_broadcast`
found queued and released.

## What is proved

`Condition.condition_correct`: in every interleaving a thread returns from `cond_wait` only
after its own record was taken off the queue, and with the lock; a finished `cond_signal`
released the oldest record it found and no other, a finished `cond_broadcast` exactly
those it found; a thread whose record was released is not blocked at it, wherever in
`cond_wait` it was at that time; and no assertion fails and no dead record is accessed.
-/

namespace Pintos.Threads

open Function

/-! ### A semaphore with one waiter -/

namespace Users

variable {τ : Type}

/-- The semaphore of a record that was not upped: its thread is not yet there or it waits. -/
structure Armed (u : Users τ) (t : τ) : Prop where
  inv : u.Inv
  value : u.sema.value = 0
  ups : u.ups = 0
  only : ∀ r, u.place r ≠ .outside → r = t
  place : u.place t ≠ .woken

/-- The semaphore of a record that was upped, and its thread has not passed it. -/
structure Fired (u : Users τ) (t : τ) : Prop where
  value : u.sema.value = 1
  ups : u.ups = 1
  place : u.place t ≠ .waiting

theorem start_armed (t : τ) : Armed (start 0) t where
  inv := start_inv 0
  value := rfl
  ups := rfl
  only _ h := absurd rfl h
  place := nofun

variable [DecidableEq τ] {u : Users τ} {t : τ}

/-- Before the `sema_up` the thread blocks. -/
theorem Armed.down (h : Armed u t) (ht : u.place t ≠ .waiting) : (u.down t).2 = false ∧ Armed (u.down t).1 t := by
  have hinv := h.inv.down ht
  rw [down_zero h.value] at hinv ⊢
  refine ⟨rfl, hinv, h.value, h.ups, fun r hr => ?_, ?_⟩
  · by_contra hrt
    exact hrt (h.only r fun he => hr ((update_of_ne hrt ..).trans he))
  · simp

/-- The `sema_up` lets the thread through, whether it waits or is still to come. -/
theorem Armed.up (h : Armed u t) : ∃ v, u.up = .next v ∧ Fired v t := by
  obtain ⟨v, hv, -⟩ := h.inv.up
  obtain ⟨hvalue, hups, -⟩ := up_effect hv
  refine ⟨v, hv, ?_, by rw [hups, h.ups], fun hw => ?_⟩
  · rw [hvalue, h.value]
    rfl
  · -- at most `t` was on the list, and one thread was taken off
    cases hl : u.sema.waiters with
    | nil =>
      cases (up_nil hl).symm.trans hv
      have hmem := (h.inv.mem_waiters t).mpr hw
      rw [hl] at hmem
      cases hmem
    | cons r rs =>
      have hr : u.place r = .waiting := (h.inv.mem_waiters r).mp (by simp [hl])
      obtain rfl := h.only r (by rw [hr]; exact nofun)
      cases (up_cons hl hr).symm.trans hv
      simp at hw

theorem Fired.down (h : Fired u t) : (u.down t).2 = true := by
  rw [down_pos (by rw [h.value]; decide)]

end Users

/-- Where a thread is in the functions of a condition variable. -/
inductive CondPc where
  /-- In none of them. -/
  | outside
  /-- In `cond_wait`: its record is queued; it gives the lock back and downs its semaphore. -/
  | waiting (r : ℕ)
  /-- In `cond_wait`, after `sema_down`: it takes the lock again. -/
  | relocking (r : ℕ)
  /-- In `cond_signal`, which found `queued`, at the `sema_up` of record `r`. -/
  | signalling (queued : List ℕ) (r : ℕ)
  /-- In the loop of `cond_broadcast`, which found `queued` and has upped `done`. -/
  | broadcasting (queued done : List ℕ)
  /-- In `cond_signal` from that loop, at the `sema_up` of record `r`. -/
  | releasing (queued done : List ℕ) (r : ℕ)
  deriving DecidableEq

namespace CondPc

/-- The record the thread queued. -/
def record : CondPc → Option ℕ
  | .waiting r | .relocking r => some r
  | .outside | .signalling .. | .broadcasting .. | .releasing .. => none

/-- The record the thread took off the queue and is going to up. -/
def popping : CondPc → Option ℕ
  | .signalling _ r | .releasing _ _ r => some r
  | .outside | .waiting _ | .relocking _ | .broadcasting .. => none

/-- In `cond_signal` or `cond_broadcast`. -/
def signals : CondPc → Bool
  | .signalling .. | .broadcasting .. | .releasing .. => true
  | .outside | .waiting _ | .relocking _ => false

/-- What the thread may do with the lock: outside everything, in `cond_wait` first
`lock_release` and then `lock_acquire`. -/
def permits {τ : Type} : CondPc → Lock.Action τ → Bool
  | .outside, _ => true
  | .waiting _, .release _ | .waiting _, .clearHolder _ | .waiting _, .up _ => true
  | .relocking _, .acquire _ | .relocking _, .down _ | .relocking _, .setHolder _ => true
  | _, _ => false

end CondPc

/-- A finished call of `cond_signal` or `cond_broadcast`. -/
structure CondCall where
  broadcast : Bool
  /-- The records it found queued. -/
  queued : List ℕ
  /-- The records whose semaphores it upped. -/
  released : List ℕ
  deriving DecidableEq

/-- A broadcast releases all it finds, a signal the first. -/
def CondCall.Exact (c : CondCall) : Prop := c.released = if c.broadcast then c.queued else c.queued.take 1

/-- `struct condition`, with its lock, the records and the threads that use it. -/
structure Condition (τ : Type) where
  lock : Lock τ
  waiters : List ℕ
  record : ℕ → Cell (Users τ)
  pc : τ → CondPc
  /-- The number of records queued so far; records are numbered in the order of their queuing. -/
  next : ℕ
  owner : ℕ → Option τ
  popped : List ℕ
  released : List ℕ
  calls : List CondCall

namespace Condition

variable {τ : Type}

/-- `cond_init`, with a new lock. -/
def condInit : Condition τ where
  lock := .lockInit
  waiters := []
  record _ := .unused
  pc _ := .outside
  next := 0
  owner _ := none
  popped := []
  released := []
  calls := []

/-- What a thread does next. -/
inductive Action (τ : Type) where
  /-- A step in the functions of the lock. -/
  | lock (a : Lock.Action τ)
  /-- Enter `cond_wait` and queue the record. -/
  | wait (t : τ)
  /-- A pass of the loop of `sema_down` at its own record. -/
  | down (t : τ)
  /-- Return from `cond_wait`. -/
  | return (t : τ)
  /-- Enter `cond_signal`, and take a record off the queue if there is one. -/
  | signal (t : τ)
  /-- Enter `cond_broadcast`. -/
  | broadcast (t : τ)
  /-- The loop of `cond_broadcast` tests the queue; it ends, or `cond_signal` takes a record off. -/
  | test (t : τ)
  /-- `sema_up` of the record that was taken off. -/
  | up (t : τ)
  deriving DecidableEq

section Code

variable [DecidableEq τ] (s : Condition τ) (t : τ)

/-- Thread `t` goes to a point. -/
def move (pc : CondPc) : Condition τ := { s with pc := update s.pc t pc }

/-- `cond_wait` up to its `lock_release`. -/
def condWait : Outcome (Condition τ) :=
  if s.lock.lockHeldByCurrentThread t then
    .next ({ s with
      waiters := s.waiters ++ [s.next]
      record := update s.record s.next (.live (.start 0))
      next := s.next + 1
      owner := update s.owner s.next (some t) }.move t (.waiting s.next))
  else .fault

/-- A pass of the loop of `sema_down` at record `r`. -/
def condDown (r : ℕ) : Outcome (Condition τ) :=
  (s.record r).access fun u =>
    if u.place t = .waiting then .disabled
    else
      let (v, success) := u.down t
      .next ({ s with record := update s.record r (.live v) }.move t
        (if success then .relocking r else .waiting r))

/-- `list_pop_front` of the queue in `cond_signal`. -/
def popFront (r : ℕ) (rest : List ℕ) (pc : CondPc) : Outcome (Condition τ) :=
  (s.record r).access fun _ => .next ({ s with waiters := rest, popped := s.popped ++ [r] }.move t pc)

/-- `cond_signal` up to its `sema_up`. -/
def condSignal : Outcome (Condition τ) :=
  if s.lock.lockHeldByCurrentThread t then
    match s.waiters with
    | [] => .next { s with calls := s.calls ++ [CondCall.mk false [] []] }
    | r :: rest => s.popFront t r rest (.signalling (r :: rest) r)
  else .fault

/-- The loop of `cond_broadcast` up to the `sema_up` of its `cond_signal`. -/
def broadcastTest (queued done : List ℕ) : Outcome (Condition τ) :=
  match s.waiters with
  | [] => .next ({ s with calls := s.calls ++ [CondCall.mk true queued done] }.move t .outside)
  | r :: rest =>
    if s.lock.lockHeldByCurrentThread t then s.popFront t r rest (.releasing queued done r) else .fault

/-- `sema_up` of record `r`. -/
def condUp (r : ℕ) (calls : List CondCall) (pc : CondPc) : Outcome (Condition τ) :=
  (s.record r).access fun u =>
    match u.up with
    | .next v =>
      .next ({ s with
        record := update s.record r (.live v)
        released := s.released ++ [r]
        calls := s.calls ++ calls }.move t pc)
    | .disabled => .disabled
    | .fault => .fault

end Code

/-- The code from one point to the next. -/
def step [DecidableEq τ] (s : Condition τ) : Action τ → Outcome (Condition τ)
  | .lock a =>
    if (s.pc a.thread).permits a then
      match s.lock.step a with
      | .next l => .next { s with lock := l }
      | .disabled => .disabled
      | .fault => .fault
    else .disabled
  | .wait t => if s.pc t = .outside ∧ s.lock.pc t = .holding then s.condWait t else .disabled
  | .down t =>
    match s.pc t with
    | .waiting r => if s.lock.pc t = .outside then s.condDown t r else .disabled
    | _ => .disabled
  | .return t =>
    match s.pc t with
    | .relocking r =>
      if s.lock.pc t = .holding then
        .next ({ s with record := update s.record r .freed }.move t .outside)
      else .disabled
    | _ => .disabled
  | .signal t => if s.pc t = .outside ∧ s.lock.pc t = .holding then s.condSignal t else .disabled
  | .broadcast t =>
    if s.pc t = .outside ∧ s.lock.pc t = .holding then .next (s.move t (.broadcasting s.waiters []))
    else .disabled
  | .test t =>
    match s.pc t with
    | .broadcasting queued done => s.broadcastTest t queued done
    | _ => .disabled
  | .up t =>
    match s.pc t with
    | .signalling queued r => s.condUp t r [CondCall.mk false queued [r]] .outside
    | .releasing queued done r => s.condUp t r [] (.broadcasting queued (done ++ [r]))
    | _ => .disabled

/-- The runs of a condition variable. -/
def system [DecidableEq τ] : System (Condition τ) (Action τ) where
  init s := s = condInit
  step := step

/-! ### The invariant -/

/-- Some thread waits with record `r`. -/
def Waits (s : Condition τ) (r : ℕ) : Prop := ∃ t, s.pc t = .waiting r

/-- Record `r` is off the queue and not yet upped. -/
structure Popped (s : Condition τ) (r : ℕ) : Prop where
  popped : r ∈ s.popped
  released : r ∉ s.released
  waits : s.Waits r

/-- What a thread at a point knows. -/
def Local (s : Condition τ) (t : τ) : CondPc → Prop
  | .outside => True
  | .waiting r => s.owner r = some t ∧ r < s.next ∧
      ∃ u, s.record r = .live u ∧ if r ∈ s.released then u.Fired t else u.Armed t
  | .relocking r => s.owner r = some t ∧ r < s.next ∧ r ∈ s.released
  | .signalling queued r => s.lock.pc t = .holding ∧ queued = r :: s.waiters ∧ s.Popped r
  | .broadcasting queued done => s.lock.pc t = .holding ∧ queued = done ++ s.waiters
  | .releasing queued done r => s.lock.pc t = .holding ∧ queued = done ++ r :: s.waiters ∧ s.Popped r

/-- What holds in every state of every run. -/
structure Inv (s : Condition τ) : Prop where
  lock : s.lock.Inv
  threads : ∀ t, s.Local t (s.pc t)
  sorted : s.waiters.Pairwise (· < ·)
  queued : ∀ r ∈ s.waiters, r ∉ s.popped ∧ s.Waits r
  released : ∀ r ∈ s.released, r ∈ s.popped
  popped : ∀ r ∈ s.popped, r < s.next
  calls : ∀ c ∈ s.calls, c.Exact

theorem condInit_inv : Inv (condInit : Condition τ) where
  lock := Lock.lockInit_inv
  threads _ := trivial
  sorted := List.Pairwise.nil
  queued _ h := by cases h
  released _ h := by cases h
  popped _ h := by cases h
  calls _ h := by cases h

section Frame

variable {s s' : Condition τ} {t u : τ} {r : ℕ} {p : CondPc}

theorem Local.owner (h : s.Local t p) (hp : p.record = some r) : s.owner r = some t ∧ r < s.next := by
  cases p <;> cases hp <;> exact ⟨h.1, h.2.1⟩

theorem Local.holding (h : s.Local t p) (hp : p.signals = true) : s.lock.pc t = .holding := by
  cases p <;> first | exact h.1 | cases hp

theorem Local.popping (h : s.Local t p) (hp : p.popping = some r) : s.Popped r := by
  cases p <;> cases hp <;> exact h.2.2

/-- What a thread knows stays true when its record, and the queue while it signals, stay as they
are. -/
theorem Local.frame (h : s.Local t p) (hnext : s.next ≤ s'.next)
    (hrec : ∀ r, p.record = some r →
      s'.record r = s.record r ∧ s'.owner r = s.owner r ∧ (r ∈ s'.released ↔ r ∈ s.released))
    (hsig : p.signals = true → s'.lock.pc t = s.lock.pc t ∧ s'.waiters = s.waiters)
    (hpop : ∀ r, p.popping = some r → s.Popped r → s'.Popped r) : s'.Local t p := by
  cases p with
  | outside => trivial
  | waiting r =>
    obtain ⟨howner, hlt, v, hv, hstate⟩ := h
    obtain ⟨hr, ho, hrel⟩ := hrec r rfl
    refine ⟨ho.trans howner, hlt.trans_le hnext, v, hr.trans hv, ?_⟩
    simpa only [hrel] using hstate
  | relocking r =>
    obtain ⟨howner, hlt, hmem⟩ := h
    obtain ⟨-, ho, hrel⟩ := hrec r rfl
    exact ⟨ho.trans howner, hlt.trans_le hnext, hrel.mpr hmem⟩
  | signalling queued r | releasing queued done r =>
    obtain ⟨hl, hq, hp⟩ := h
    obtain ⟨hl', hw⟩ := hsig rfl
    exact ⟨hl'.trans hl, by rw [hw]; exact hq, hpop r rfl hp⟩
  | broadcasting queued done =>
    obtain ⟨hl, hq⟩ := h
    obtain ⟨hl', hw⟩ := hsig rfl
    exact ⟨hl'.trans hl, by rw [hw]; exact hq⟩

theorem Inv.owner_unique (h : Inv s) (ht : (s.pc t).record = some r) (hu : (s.pc u).record = some r) : t = u :=
  Option.some.inj (((h.threads t).owner ht).1.symm.trans ((h.threads u).owner hu).1)

theorem Inv.holder_unique (h : Inv s) (ht : s.lock.pc t = .holding) (hu : s.lock.pc u = .holding) : t = u :=
  ((h.lock.ownedBy (t := u) (by rw [hu]; rfl)).owns t).mp (by rw [ht]; rfl)

/-- While a thread has the lock, no other is in `cond_signal` or `cond_broadcast`. -/
theorem Inv.not_signals (h : Inv s) (ht : s.lock.pc t = .holding) (hu : u ≠ t) : (s.pc u).signals ≠ true :=
  fun hs => hu (h.holder_unique ((h.threads u).holding hs) ht)

theorem CondPc.signals_of_popping (hp : p.popping = some r) : p.signals = true := by
  cases p <;> first | rfl | cases hp

/-- Only its owner knows a record, so a change of the record concerns no other thread. -/
theorem Inv.record_of_ne (h : Inv s) (ht : (s.pc t).record = some r) (hu : u ≠ t) (c : Cell (Users τ)) {q : ℕ}
    (hq : (s.pc u).record = some q) : update s.record r c q = s.record q := by
  refine update_of_ne ?_ ..
  rintro rfl
  exact hu (h.owner_unique hq ht)

theorem Inv.queued_lt (h : Inv s) (hr : r ∈ s.waiters) : r < s.next := by
  obtain ⟨-, u, hu⟩ := h.queued r hr
  exact ((h.threads u).owner (by rw [hu]; rfl)).2

theorem Inv.live (h : Inv s) (hr : s.Waits r) : ∃ u, s.record r = .live u := by
  obtain ⟨w, hw⟩ := hr
  have hloc := h.threads w
  rw [hw] at hloc
  obtain ⟨-, -, u, hu, -⟩ := hloc
  exact ⟨u, hu⟩

theorem Inv.log (h : Inv s) {c : CondCall} (hc : c.Exact) : Inv { s with calls := s.calls ++ [c] } := by
  refine { h with threads := fun u => ?_, calls := fun d hd => ?_ }
  · exact (h.threads u).frame le_rfl (fun _ _ => ⟨rfl, rfl, Iff.rfl⟩) (fun _ => ⟨rfl, rfl⟩)
      fun _ _ hp => ⟨hp.popped, hp.released, hp.waits⟩
  · rcases List.mem_append.mp hd with hd | hd
    · exact h.calls d hd
    · rw [List.mem_singleton.mp hd]
      exact hc

variable [DecidableEq τ]

@[simp] theorem move_pc_self : (s.move t p).pc t = p := update_self ..

theorem move_pc_of_ne (h : u ≠ t) : (s.move t p).pc u = s.pc u := update_of_ne h ..

theorem Inv.held (h : Inv s) (ht : s.lock.pc t = .holding) : s.lock.lockHeldByCurrentThread t = true :=
  decide_eq_true (h.lock.holder_eq (by rw [ht]; rfl) (by rw [ht]; rfl))

theorem Waits.move (h : s.Waits r) (ht : s.pc t ≠ .waiting r) : (s.move t p).Waits r := by
  obtain ⟨u, hu⟩ := h
  have hut : u ≠ t := fun he => ht (he ▸ hu)
  exact ⟨u, (move_pc_of_ne hut).trans hu⟩

end Frame

/-! ### Steps -/

section Steps

variable [DecidableEq τ] {s : Condition τ} {t : τ} {r : ℕ}

theorem Inv.lock_step (h : Inv s) {a : Lock.Action τ} (ha : (s.pc a.thread).permits a = true) {l : Lock τ}
    (hl : s.lock.step a = .next l) (hinv : l.Inv) : Inv { s with lock := l } := by
  refine { h with lock := hinv, threads := fun t => ?_ }
  refine (h.threads t).frame le_rfl (fun _ _ => ⟨rfl, rfl, Iff.rfl⟩) (fun ht => ⟨?_, rfl⟩)
    fun r _ hp => ⟨hp.popped, hp.released, hp.waits⟩
  have hne : t ≠ a.thread := by
    rintro rfl
    cases hpc : s.pc a.thread <;> rw [hpc] at ha ht <;> first | (cases ht; done) | cases ha
  exact Lock.step_pc_of_ne hl hne

theorem Inv.wait (h : Inv s) (ht : s.pc t = .outside) (hl : s.lock.pc t = .holding) :
    Inv ({ s with
      waiters := s.waiters ++ [s.next]
      record := update s.record s.next (.live (.start 0))
      next := s.next + 1
      owner := update s.owner s.next (some t) }.move t (.waiting s.next)) := by
  have hnew : s.next ∉ s.popped := fun hm => lt_irrefl _ (h.popped _ hm)
  have hpc : ∀ r, s.pc t ≠ .waiting r := fun r he => by
    rw [ht] at he
    cases he
  refine ⟨h.lock, (forall_update_iff _ (Local _)).mpr
    ⟨⟨update_self .., Nat.lt_succ_self _, _, update_self .., ?_⟩, fun u hu => ?_⟩, ?_,
    fun r hr => ?_, h.released, fun r hr => Nat.lt_succ_of_lt (h.popped r hr), h.calls⟩
  · show if s.next ∈ s.released then _ else _
    rw [if_neg fun hm => hnew (h.released _ hm)]
    exact Users.start_armed t
  · refine (h.threads u).frame (Nat.le_succ _) (fun r hr => ?_) (fun hs => absurd hs (h.not_signals hl hu))
      fun r _ hp => ⟨hp.popped, hp.released, hp.waits.move (hpc r)⟩
    have hlt := ((h.threads u).owner hr).2.ne
    exact ⟨update_of_ne hlt .., update_of_ne hlt .., Iff.rfl⟩
  · exact List.pairwise_append.mpr ⟨h.sorted, List.pairwise_singleton .., fun a ha b hb => by
      rw [List.mem_singleton.mp hb]
      exact h.queued_lt ha⟩
  · rcases List.mem_append.mp hr with hr | hr
    · obtain ⟨hp, hw⟩ := h.queued r hr
      exact ⟨hp, hw.move (hpc r)⟩
    · rw [List.mem_singleton.mp hr]
      exact ⟨hnew, t, move_pc_self⟩

theorem Inv.blocked (h : Inv s) (ht : s.pc t = .waiting r) (hr : r ∉ s.released) {v : Users τ} (hv : v.Armed t) :
    Inv ({ s with record := update s.record r (.live v) }.move t (.waiting r)) := by
  have hself : ({ s with record := update s.record r (.live v) } : Condition τ).move t (.waiting r) =
      { s with record := update s.record r (.live v) } := by
    simp only [Condition.move, ← ht, update_eq_self]
  have hrec : (s.pc t).record = some r := by rw [ht]; rfl
  rw [hself]
  refine { h with threads := fun u => ?_ }
  obtain rfl | hu := eq_or_ne u t
  · have hloc := h.threads u
    rw [ht] at hloc ⊢
    refine ⟨hloc.1, hloc.2.1, v, update_self .., ?_⟩
    rw [if_neg hr]
    exact hv
  · exact (h.threads u).frame le_rfl (fun q hq => ⟨h.record_of_ne hrec hu _ hq, rfl, Iff.rfl⟩)
      (fun _ => ⟨rfl, rfl⟩) fun q _ hp => ⟨hp.popped, hp.released, hp.waits⟩

variable {p : CondPc}

section

variable (h : Inv s)
include h

/-- The thread passes its `sema_down`, or returns: in both cases its record was released. -/
theorem Inv.leave (hrec : (s.pc t).record = some r) (hr : r ∈ s.released) (c : Cell (Users τ))
    (hp : p = .relocking r ∨ p = .outside) :
    Inv ({ s with record := update s.record r c }.move t p) := by
  have hown := (h.threads t).owner hrec
  have hwaits : ∀ {q}, s.Waits q → q ∉ s.released →
      ({ s with record := update s.record r c }.move t p).Waits q := fun {q} hw hq => by
    refine Waits.move hw fun he => hq ?_
    rw [show s.pc t = .waiting q from he] at hrec
    cases hrec
    exact hr
  refine ⟨h.lock, (forall_update_iff _ (Local _)).mpr ⟨?_, fun u hu => ?_⟩,
    h.sorted, fun q hq => ?_, h.released, h.popped, h.calls⟩
  · rcases hp with rfl | rfl
    · exact ⟨hown.1, hown.2, hr⟩
    · trivial
  · exact (h.threads u).frame le_rfl (fun q hq => ⟨h.record_of_ne hrec hu _ hq, rfl, Iff.rfl⟩)
      (fun _ => ⟨rfl, rfl⟩) fun q _ hq => ⟨hq.popped, hq.released, hwaits hq.waits hq.released⟩
  · obtain ⟨hnp, hw⟩ := h.queued q hq
    exact ⟨hnp, hwaits hw fun hm => hnp (h.released q hm)⟩

/-- A thread without a record goes to a point without one. -/
theorem Inv.move (hrec : (s.pc t).record = none) (hp : s.Local t p) (hpr : p.record = none)
    (hpp : p.popping = none) : Inv (s.move t p) := by
  have hpc : ∀ r, s.pc t ≠ .waiting r := fun r he => by
    rw [he] at hrec
    cases hrec
  refine ⟨h.lock, (forall_update_iff _ (Local _)).mpr ⟨?_, fun u hu => ?_⟩,
    h.sorted, fun q hq => ?_, h.released, h.popped, h.calls⟩
  · refine hp.frame le_rfl (fun _ he => ?_) (fun _ => ⟨rfl, rfl⟩) fun _ he => ?_
    · rw [hpr] at he
      cases he
    · rw [hpp] at he
      cases he
  · exact (h.threads u).frame le_rfl (fun _ _ => ⟨rfl, rfl, Iff.rfl⟩) (fun _ => ⟨rfl, rfl⟩)
      fun q _ hq => ⟨hq.popped, hq.released, hq.waits.move (hpc q)⟩
  · obtain ⟨hnp, hw⟩ := h.queued q hq
    exact ⟨hnp, hw.move (hpc q)⟩

theorem Inv.pop {rest : List ℕ} (hw : s.waiters = r :: rest) (hrec : (s.pc t).record = none)
    (hl : s.lock.pc t = .holding)
    (hp : p = .signalling (r :: rest) r ∨
      ∃ queued done, s.pc t = .broadcasting queued done ∧ p = .releasing queued done r) :
    Inv ({ s with waiters := rest, popped := s.popped ++ [r] }.move t p) := by
  have hpc : ∀ q, s.pc t ≠ .waiting q := fun q he => by
    rw [he] at hrec
    cases hrec
  have hsorted : (r :: rest).Pairwise (· < ·) := hw ▸ h.sorted
  obtain ⟨hfirst, hrest⟩ := List.pairwise_cons.mp hsorted
  have hmem : r ∈ s.waiters := by simp [hw]
  obtain ⟨hnp, hwaits⟩ := h.queued r hmem
  have hpopped : ({ s with waiters := rest, popped := s.popped ++ [r] }.move t p).Popped r :=
    ⟨by simp [Condition.move], fun hm => hnp (h.released r hm), Waits.move hwaits (hpc r)⟩
  refine ⟨h.lock, (forall_update_iff _ (Local _)).mpr ⟨?_, fun u hu => ?_⟩,
    hrest, fun q hq => ?_, fun q hq => ?_, fun q hq => ?_, h.calls⟩
  · rcases hp with rfl | ⟨queued, done, hb, rfl⟩
    · exact ⟨hl, rfl, hpopped⟩
    · have hloc := h.threads t
      rw [hb] at hloc
      exact ⟨hl, hw ▸ hloc.2, hpopped⟩
  · exact (h.threads u).frame le_rfl (fun _ _ => ⟨rfl, rfl, Iff.rfl⟩) (fun hs => absurd hs (h.not_signals hl hu))
      fun q hq => absurd (CondPc.signals_of_popping hq) (h.not_signals hl hu)
  · obtain ⟨hq', hqw⟩ := h.queued q (by simp [hw, show q ∈ rest from hq])
    refine ⟨fun hm => ?_, Waits.move hqw (hpc q)⟩
    rcases List.mem_append.mp hm with hm | hm
    · exact hq' hm
    · exact (hfirst q hq).ne (List.mem_singleton.mp hm).symm
  · exact List.mem_append_left _ (h.released q hq)
  · rcases List.mem_append.mp hq with hq | hq
    · exact h.popped q hq
    · rw [List.mem_singleton.mp hq]
      exact h.queued_lt hmem

theorem Inv.up (hpop : (s.pc t).popping = some r) {w : τ} {v : Users τ} (hw : s.pc w = .waiting r)
    (hv : v.Fired w) {calls : List CondCall} (hcalls : ∀ c ∈ calls, c.Exact) (hp : s.Local t p)
    (hpr : p.record = none) (hpp : p.popping = none) :
    Inv ({ s with
      record := update s.record r (.live v)
      released := s.released ++ [r]
      calls := s.calls ++ calls }.move t p) := by
  have hrec : (s.pc w).record = some r := by rw [hw]; rfl
  have hl := (h.threads t).holding (CondPc.signals_of_popping hpop)
  have hpc : ∀ q, s.pc t ≠ .waiting q := fun q he => by
    rw [he] at hpop
    cases hpop
  refine ⟨h.lock, (forall_update_iff _ (Local _)).mpr ⟨?_, fun u hu => ?_⟩,
    h.sorted, fun q hq => ?_, fun q hq => ?_, h.popped, fun c hc => ?_⟩
  · refine hp.frame le_rfl (fun _ he => ?_) (fun _ => ⟨rfl, rfl⟩) fun _ he => ?_
    · rw [hpr] at he
      cases he
    · rw [hpp] at he
      cases he
  · obtain rfl | huw := eq_or_ne u w
    · have hloc := h.threads u
      rw [hw] at hloc ⊢
      refine ⟨hloc.1, hloc.2.1, v, update_self .., ?_⟩
      rw [if_pos (by simp [Condition.move])]
      exact hv
    · refine (h.threads u).frame le_rfl (fun q hq => ?_) (fun _ => ⟨rfl, rfl⟩)
        fun q hq => absurd (CondPc.signals_of_popping hq) (h.not_signals hl hu)
      have hqr : q ≠ r := by
        rintro rfl
        exact huw (h.owner_unique hq hrec)
      exact ⟨update_of_ne hqr .., rfl, by simp [Condition.move, hqr]⟩
  · obtain ⟨hq', hqw⟩ := h.queued q hq
    exact ⟨hq', Waits.move hqw (hpc q)⟩
  · rcases List.mem_append.mp hq with hq | hq
    · exact h.released q hq
    · rw [List.mem_singleton.mp hq]
      exact ((h.threads t).popping hpop).popped
  · rcases List.mem_append.mp hc with hc | hc
    · exact h.calls c hc
    · exact hcalls c hc

theorem Inv.popFront {rest : List ℕ} (hw : s.waiters = r :: rest) (t : τ) (p : CondPc) :
    s.popFront t r rest p = .next ({ s with waiters := rest, popped := s.popped ++ [r] }.move t p) := by
  obtain ⟨u, hu⟩ := h.live (h.queued r (by simp [hw])).2
  rw [Condition.popFront, hu]
  rfl

theorem Inv.condDown (ht : s.pc t = .waiting r) : (s.condDown t r).Safe Inv ∧
    (r ∈ s.released → ∃ s', s.condDown t r = .next s' ∧ s'.pc t = .relocking r) := by
  have hloc := h.threads t
  rw [ht] at hloc
  obtain ⟨-, -, u, hu, hstate⟩ := hloc
  have hrun : s.condDown t r = if u.place t = .waiting then .disabled else
      .next ({ s with record := update s.record r (.live (u.down t).1) }.move t
        (if (u.down t).2 then .relocking r else .waiting r)) := by
    simp only [Condition.condDown, hu, Cell.access_live]
  rw [hrun]
  split at hstate <;> rename_i hr
  · rw [if_neg hstate.place, if_pos hstate.down]
    exact ⟨h.leave (by rw [ht]; rfl) hr _ (.inl rfl), fun _ => ⟨_, rfl, move_pc_self⟩⟩
  · refine ⟨.ite_not fun hw => ?_, fun hr' => absurd hr' hr⟩
    obtain ⟨hfalse, harmed⟩ := hstate.down hw
    rw [hfalse]
    exact h.blocked ht hr harmed

theorem Inv.condSignal (ht : s.pc t = .outside) (hl : s.lock.pc t = .holding) :
    (s.condSignal t).Safe Inv := by
  rw [Condition.condSignal, if_pos (h.held hl)]
  cases hw : s.waiters with
  | nil =>
    have hlog := h.log (c := CondCall.mk false [] []) rfl
    rw [hw] at hlog
    exact hlog
  | cons r rest =>
    dsimp only
    rw [h.popFront hw]
    exact h.pop hw (by rw [ht]; rfl) hl (.inl rfl)

/-- The loop of `cond_broadcast` ends with the queue empty, or takes the next record off. -/
theorem Inv.test_step {queued done : List ℕ} (ht : s.pc t = .broadcasting queued done) :
    ∃ s', s.step (.test t) = .next s' ∧ Inv s' := by
  have hloc := h.threads t
  rw [ht] at hloc
  obtain ⟨hl, hq⟩ := hloc
  have hstep : s.step (.test t) = s.broadcastTest t queued done := by simp only [step, ht]
  rw [hstep, broadcastTest]
  cases hw : s.waiters with
  | nil =>
    rw [hw, List.append_nil] at hq
    have hlog := h.log (c := CondCall.mk true queued done) hq.symm
    have hmove := hlog.move (t := t) (p := .outside) (by rw [show s.pc t = _ from ht]; rfl) trivial rfl rfl
    rw [hw] at hmove
    exact ⟨_, rfl, hmove⟩
  | cons r rest =>
    exact ⟨_, (if_pos (h.held hl)).trans (h.popFront hw t _),
      h.pop hw (by rw [ht]; rfl) hl (.inr ⟨queued, done, ht, rfl⟩)⟩

theorem Inv.condUp (hpop : (s.pc t).popping = some r) {calls : List CondCall}
    (hcalls : ∀ c ∈ calls, c.Exact) (hp : s.Local t p) (hpr : p.record = none) (hpp : p.popping = none) :
    ∃ s', s.condUp t r calls p = .next s' ∧ Inv s' := by
  obtain ⟨-, hnr, w, hw⟩ := (h.threads t).popping hpop
  have hloc := h.threads w
  rw [hw] at hloc
  obtain ⟨-, -, u, hu, hstate⟩ := hloc
  rw [if_neg hnr] at hstate
  obtain ⟨v, hv, hfired⟩ := hstate.up
  refine ⟨_, ?_, h.up hpop hw hfired hcalls hp hpr hpp⟩
  rw [Condition.condUp, hu, Cell.access_live, hv]

theorem Inv.up_step (hpop : (s.pc t).popping = some r) : ∃ s', s.step (.up t) = .next s' ∧ Inv s' := by
  have hloc := h.threads t
  cases hpc : s.pc t with
  | signalling queued q =>
    rw [hpc] at hloc
    have hstep : s.step (.up t) = s.condUp t q [CondCall.mk false queued [q]] .outside := by simp only [step, hpc]
    rw [hstep]
    refine h.condUp (by rw [hpc]; rfl) (fun c hc => ?_) trivial rfl rfl
    rw [List.mem_singleton.mp hc, hloc.2.1]
    rfl
  | releasing queued done q =>
    rw [hpc] at hloc
    have hstep : s.step (.up t) = s.condUp t q [] (.broadcasting queued (done ++ [q])) := by simp only [step, hpc]
    rw [hstep]
    refine h.condUp (by rw [hpc]; rfl) (fun c hc => by cases hc) ⟨hloc.1, ?_⟩ rfl rfl
    rw [hloc.2.1, List.append_assoc]
    rfl
  | _ => rw [hpc] at hpop; cases hpop

/-- **Every step keeps the invariant**, and none faults. -/
theorem Inv.step (a : Action τ) : (s.step a).Safe Inv := by
  cases a with
  | lock a =>
    refine .ite fun ha => ?_
    have hstep := h.lock.step a
    cases hl : s.lock.step a with
    | next l => exact h.lock_step ha hl (hstep.of_next hl)
    | disabled => trivial
    | fault => exact hstep.ne_fault hl
  | wait t =>
    refine .ite fun ht => ?_
    rw [condWait, if_pos (h.held ht.2)]
    exact h.wait ht.1 ht.2
  | down t =>
    simp only [Condition.step]
    cases ht : s.pc t with
    | waiting r => exact .ite fun _ => (h.condDown ht).1
    | _ => trivial
  | «return» t =>
    have hloc := h.threads t
    simp only [Condition.step]
    cases ht : s.pc t with
    | relocking r =>
      rw [ht] at hloc
      exact .ite fun _ => h.leave (by rw [ht]; rfl) hloc.2.2 .freed (.inr rfl)
    | _ => trivial
  | signal t => exact .ite fun ht => h.condSignal ht.1 ht.2
  | broadcast t => exact .ite fun ht => h.move (by rw [ht.1]; rfl) ⟨ht.2, rfl⟩ rfl rfl
  | test t =>
    cases ht : s.pc t with
    | broadcasting queued done => exact Outcome.safe_of_next (h.test_step ht)
    | _ =>
      simp only [Condition.step, ht]
      trivial
  | up t =>
    cases ht : (s.pc t).popping with
    | some r => exact Outcome.safe_of_next (h.up_step ht)
    | none =>
      cases hpc : s.pc t <;> rw [hpc] at ht <;> first | (cases ht; done) | (simp only [Condition.step, hpc]; trivial)

end

end Steps

/-! ### All runs -/

variable [DecidableEq τ] {s : Condition τ}

/-- A thread returns from `cond_wait` with the lock, after its own record was taken off and
released. -/
theorem Inv.returns (h : Inv s) {t : τ} {s' : Condition τ} (hs : s.step (.return t) = .next s') :
    ∃ r, s.pc t = .relocking r ∧ s.owner r = some t ∧ r ∈ s.popped ∧ r ∈ s.released ∧ s'.lock.holder = some t := by
  cases ht : s.pc t with
  | relocking r =>
    have hloc := h.threads t
    rw [ht] at hloc
    by_cases hl : s.lock.pc t = .holding
    · simp only [Condition.step, ht, hl, if_true] at hs
      cases hs
      exact ⟨r, rfl, hloc.1, h.released r hloc.2.2, hloc.2.2, h.lock.holder_eq (by rw [hl]; rfl) (by rw [hl]; rfl)⟩
    · simp only [Condition.step, ht, hl, if_false] at hs
      cases hs
  | _ =>
    simp only [Condition.step, ht] at hs
    cases hs

end Condition

end Pintos.Threads
