import Pintos.Basis.Ring
import Pintos.Threads.Synch

/-!
# Interrupt queues (`devices/intq.c`)

A queue of bytes between threads and interrupt handlers. A thread that finds it empty (or full, to
write) takes the lock of the queue, notes itself in `not_empty` (`not_full`) and blocks; whoever
puts (takes) a byte wakes the thread that is noted. Only one thread may wait at a time, and the
lock is held all the while.

## The model

Interrupts are off in all functions, so that a thread loses the processor only where it blocks: in
`sema_down` of `lock_acquire`, and in `wait`. A step is what a thread does up to such a point, or up
to its return; a thread that was woken goes on when it is dispatched, and other threads and handlers
may come first. Handlers put bytes only while the queue is not full, and take them only while it is
not empty, as the comments of the source demand. The semaphore of the lock is that of
`Pintos.Threads.Synch`. A failed assertion is a fault; the one of `thread_unblock` is that the
thread is blocked in `wait`. `written` and `read` are history: the bytes put and taken.

## What is proved

**`wait_characterised`**: the bytes come out in the order in which they went in; a thread is blocked
in `wait` only while the condition it waits for is false; and the only assertion that ever fails is
the one of `wait`, for a thread that had to wait for the lock, and got it when the queue had changed
meanwhile (`wait_fails`). In runs in which every call that finds the queue empty or full finds the
lock free, no assertion fails, and a thread is blocked only while the condition is false.

**`intq_fifo`**: calls that need not wait do to the ring buffer what they do to a queue of
`INTQ_BUFSIZE - 1` bytes.
-/

namespace Pintos.Devices

open Function Threads

def intqBufsize : ℕ := 64

/-- The members `not_full` and `not_empty`. -/
inductive Waiter where
  | notFull
  | notEmpty
  deriving DecidableEq

/-- A call of `intq_getc` or `intq_putc`. -/
inductive IntqCall where
  | getc
  | putc (byte : UInt8)
  deriving DecidableEq

namespace IntqCall

/-- Where the caller waits. -/
def waiter : IntqCall → Waiter
  | .getc => .notEmpty
  | .putc _ => .notFull

/-- Whom the caller wakes. -/
def wakes : IntqCall → Waiter
  | .getc => .notFull
  | .putc _ => .notEmpty

end IntqCall

/-- Where a thread is. -/
inductive IntqPc where
  /-- In none of the functions. -/
  | outside
  /-- In `lock_acquire`, at or after its `thread_block`. -/
  | locking (c : IntqCall)
  /-- Blocked in `wait`. -/
  | waiting (c : IntqCall)
  /-- Unblocked, in `wait`. -/
  | woken (c : IntqCall)
  deriving DecidableEq

/-- With the lock. -/
def IntqPc.inside : IntqPc → Bool
  | .waiting _ | .woken _ => true
  | .outside | .locking _ => false

/-- `struct intq`, with the threads that use it. -/
structure Intq (τ : Type) where
  /-- The semaphore of `lock`. -/
  lock : Users τ
  holder : Option τ
  notFull : Option τ
  notEmpty : Option τ
  buf : ℕ → UInt8
  head : ℕ
  tail : ℕ
  pc : τ → IntqPc
  written : List UInt8
  read : List UInt8

namespace Intq

variable {τ : Type}

def intqInit : Intq τ where
  lock := .start 1
  holder := none
  notFull := none
  notEmpty := none
  buf _ := 0
  head := 0
  tail := 0
  pc _ := .outside
  written := []
  read := []

def intqEmpty (q : Intq τ) : Bool := q.head = q.tail

def intqFull (q : Intq τ) : Bool := Ring.next intqBufsize q.head = q.tail

/-- The condition that goes with a member. -/
def holds (q : Intq τ) : Waiter → Bool
  | .notFull => !q.intqFull
  | .notEmpty => !q.intqEmpty

def waiter (q : Intq τ) : Waiter → Option τ
  | .notFull => q.notFull
  | .notEmpty => q.notEmpty

def setWaiter (q : Intq τ) (t : Option τ) : Waiter → Intq τ
  | .notFull => { q with notFull := t }
  | .notEmpty => { q with notEmpty := t }

/-- What happens next. -/
inductive Action (τ : Type) where
  /-- A thread calls `intq_getc` or `intq_putc`. -/
  | call (t : τ) (c : IntqCall)
  /-- A thread that was woken goes on. -/
  | resume (t : τ)
  /-- An interrupt handler does. -/
  | handler (c : IntqCall)
  deriving DecidableEq

section Functions

variable [DecidableEq τ]

/-- Thread `t` goes to a point. -/
def move (q : Intq τ) (t : τ) (pc : IntqPc) : Intq τ := { q with pc := update q.pc t pc }

def wait (q : Intq τ) (t : τ) (c : IntqCall) : Outcome (Intq τ) :=
  if q.holds c.waiter then .fault else .next ((q.setWaiter (some t) c.waiter).move t (.waiting c))

def threadUnblock (q : Intq τ) (t : τ) : Outcome (Intq τ) :=
  match q.pc t with
  | .waiting c => .next (q.move t (.woken c))
  | _ => .fault

def signal (q : Intq τ) (w : Waiter) : Outcome (Intq τ) :=
  if q.holds w then
    match q.waiter w with
    | none => .next q
    | some t => (q.threadUnblock t).map fun q => q.setWaiter none w
  else .fault

/-- The byte is taken, or put. -/
def transfer (q : Intq τ) : IntqCall → Intq τ
  | .getc => { q with tail := Ring.next intqBufsize q.tail, read := q.read ++ [q.buf q.tail] }
  | .putc byte =>
    { q with
      buf := update q.buf q.head byte
      head := Ring.next intqBufsize q.head
      written := q.written ++ [byte] }

/-- A pass of the loop of `sema_down` in `lock_acquire`, and with the lock, `wait`. -/
def acquire (q : Intq τ) (t : τ) (c : IntqCall) : Outcome (Intq τ) :=
  let (lock, success) := q.lock.down t
  if success then { q with lock := lock, holder := some t }.wait t c
  else .next ({ q with lock := lock }.move t (.locking c))

/-- `lock_release`. The thread has left `wait`. -/
def release (q : Intq τ) (t : τ) : Outcome (Intq τ) :=
  if q.holder = some t then
    match q.lock.up with
    | .next lock => .next ({ q with lock := lock, holder := none }.move t .outside)
    | .disabled => .disabled
    | .fault => .fault
  else .fault

/-- `intq_getc` and `intq_putc` from the test of the loop on. -/
def pass (q : Intq τ) (t : τ) (c : IntqCall) : Outcome (Intq τ) :=
  if q.holds c.waiter then (q.transfer c).signal c.wakes
  else if q.holder = some t then .fault
  else q.acquire t c

def step (q : Intq τ) : Action τ → Outcome (Intq τ)
  | .call t c => if q.pc t = .outside then q.pass t c else .disabled
  | .resume t =>
    match q.pc t with
    | .locking c => if q.lock.place t = .woken then q.acquire t c else .disabled
    | .woken c =>
      match q.release t with
      | .next q => q.pass t c
      | .disabled => .disabled
      | .fault => .fault
    | _ => .disabled
  | .handler c => if q.holds c.waiter then (q.transfer c).signal c.wakes else .disabled

/-- The runs of a queue. -/
def system : System (Intq τ) (Action τ) where
  init q := q = intqInit
  step := step

end Functions

section

variable (q : Intq τ)
include q

@[simp] theorem transfer_lock (c : IntqCall) : (q.transfer c).lock = q.lock := by cases c <;> rfl

@[simp] theorem transfer_holder (c : IntqCall) : (q.transfer c).holder = q.holder := by cases c <;> rfl

@[simp] theorem transfer_pc (c : IntqCall) : (q.transfer c).pc = q.pc := by cases c <;> rfl

@[simp] theorem transfer_waiter (c : IntqCall) (w : Waiter) : (q.transfer c).waiter w = q.waiter w := by
  cases c <;> cases w <;> rfl

@[simp] theorem setWaiter_lock (t : Option τ) (w : Waiter) : (q.setWaiter t w).lock = q.lock := by
  cases w <;> rfl

@[simp] theorem setWaiter_holder (t : Option τ) (w : Waiter) : (q.setWaiter t w).holder = q.holder := by
  cases w <;> rfl

@[simp] theorem setWaiter_pc (t : Option τ) (w : Waiter) : (q.setWaiter t w).pc = q.pc := by
  cases w <;> rfl

theorem waiter_setWaiter (t : Option τ) (w v : Waiter) :
    (q.setWaiter t w).waiter v = if v = w then t else q.waiter v := by
  cases w <;> cases v <;> rfl

end

@[simp] theorem move_waiter [DecidableEq τ] (q : Intq τ) (t : τ) (pc : IntqPc) (w : Waiter) :
    (q.move t pc).waiter w = q.waiter w := by
  cases w <;> rfl

/-! ### The invariant -/

/-- What holds in every state of every run. -/
structure Inv (q : Intq τ) : Prop where
  lock : q.lock.Inv
  /-- Who is at the semaphore is in `lock_acquire`. -/
  place : ∀ t, q.lock.place t ≠ .outside ↔ ∃ c, q.pc t = .locking c
  /-- The lock is free, or one thread has it. -/
  owner : q.lock.sema.value = 1 ∧ q.holder = none ∧ (∀ t, (q.pc t).inside = false) ∨
    ∃ u, q.lock.sema.value = 0 ∧ q.holder = some u ∧ ∀ t, (q.pc t).inside = true ↔ t = u
  /-- The members note the threads in `wait`. -/
  waiter : ∀ w t, q.waiter w = some t ↔ ∃ c, q.pc t = .waiting c ∧ c.waiter = w
  /-- Nobody is blocked in `wait` without reason. -/
  waits : ∀ t c, q.pc t = .waiting c → q.holds c.waiter = false
  head : q.head < intqBufsize
  tail : q.tail < intqBufsize
  bytes : q.written = q.read ++ Ring.contents intqBufsize q.buf q.head q.tail

theorem intqInit_inv : Inv (intqInit : Intq τ) where
  lock := Users.start_inv 1
  place t := by simp [intqInit, Users.start]
  owner := .inl ⟨rfl, rfl, fun _ => rfl⟩
  waiter w t := by cases w <;> simp [Intq.waiter, intqInit]
  waits _ _ h := by cases h
  head := Nat.zero_lt_succ _
  tail := Nat.zero_lt_succ _
  bytes := by
    simp only [intqInit, List.nil_append]
    exact ((Ring.contents_eq_nil_iff _ (by decide) (by decide)).mpr rfl).symm

/-! ### The bytes -/

section Bytes

variable {q : Intq τ} {c : IntqCall}

theorem holds_notFull : q.holds .notFull = true ↔ Ring.next intqBufsize q.head ≠ q.tail := by simp [holds, intqFull]

theorem holds_notEmpty : q.holds .notEmpty = true ↔ q.head ≠ q.tail := by simp [holds, intqEmpty]

/-- A byte goes, and nothing else changes for the threads; the assertion of `signal` holds. -/
theorem Inv.transfer (h : Inv q) (hc : q.holds c.waiter = true) :
    (q.transfer c).holds c.wakes = true ∧ (q.transfer c).head < intqBufsize ∧ (q.transfer c).tail < intqBufsize ∧
      (q.transfer c).written =
        (q.transfer c).read ++ Ring.contents intqBufsize (q.transfer c).buf (q.transfer c).head (q.transfer c).tail := by
  cases c with
  | getc =>
    have hne := holds_notEmpty.mp hc
    refine ⟨holds_notFull.mpr (Ring.next_ne_next h.head h.tail hne), h.head, Ring.next_lt h.tail, ?_⟩
    show q.written = q.read ++ [q.buf q.tail] ++ Ring.contents intqBufsize q.buf q.head (Ring.next intqBufsize q.tail)
    rw [h.bytes, Ring.contents_pop q.buf h.head h.tail hne, List.append_assoc]
    rfl
  | putc byte =>
    have hfull := holds_notFull.mp hc
    refine ⟨holds_notEmpty.mpr hfull, Ring.next_lt h.head, h.tail, ?_⟩
    show q.written ++ [byte] = q.read ++
      Ring.contents intqBufsize (update q.buf q.head byte) (Ring.next intqBufsize q.head) q.tail
    rw [h.bytes, Ring.contents_push q.buf byte h.head h.tail hfull, List.append_assoc]

end Bytes

/-! ### Steps -/

section Steps

variable {q q' : Intq τ} {t u : τ} {c : IntqCall} {w : Waiter}

theorem Inv.waiter_eq (h : Inv q) (hc : q.holds c.waiter = true) {d : IntqCall} (hd : q.pc t = .waiting d) :
    d.waiter = c.wakes := by
  have hne : d.waiter ≠ c.waiter := fun he => by
    have hno := h.waits t d hd
    rw [he, hc] at hno
    cases hno
  cases c <;> cases d <;> first | rfl | exact absurd rfl hne

theorem Inv.quiet (h : Inv q) (hlock : q'.lock = q.lock) (hholder : q'.holder = q.holder)
    (hinside : ∀ t, (q'.pc t).inside = (q.pc t).inside) (hlocking : ∀ t c, q'.pc t = .locking c ↔ q.pc t = .locking c)
    (hnone : ∀ w, q'.waiter w = none) (hwait : ∀ t c, q'.pc t ≠ .waiting c) (hhead : q'.head < intqBufsize)
    (htail : q'.tail < intqBufsize)
    (hbytes : q'.written = q'.read ++ Ring.contents intqBufsize q'.buf q'.head q'.tail) : Inv q' where
  lock := hlock ▸ h.lock
  place t := by simp only [hlock, h.place, hlocking]
  owner := by simpa only [hlock, hholder, hinside] using h.owner
  waiter w t := by simp [hnone, hwait]
  waits t c hc := absurd hc (hwait t c)
  head := hhead
  tail := htail
  bytes := hbytes

/-- Nobody new waits for the lock. -/
def NoLocking (q q' : Intq τ) : Prop := ∀ t d, q'.pc t = .locking d → q.pc t = .locking d

theorem Inv.waiter_eq_none (h : Inv q) (hc : q.holds w = true) : q.waiter w = none := by
  cases hw : q.waiter w with
  | none => rfl
  | some t =>
    obtain ⟨d, hd, rfl⟩ := (h.waiter _ t).mp hw
    cases hc.symm.trans (h.waits t d hd)

variable [DecidableEq τ]

section

variable (h : Inv q)
include h

/-- **A byte is taken or put, and the thread that waits for it is woken.** -/
theorem Inv.signal (hc : q.holds c.waiter = true) :
    ((q.transfer c).signal c.wakes).Safe fun q' => Inv q' ∧ NoLocking q q' := by
  obtain ⟨hholds, hhead, htail, hbytes⟩ := h.transfer hc
  have hother := h.waiter_eq_none hc
  rw [Intq.signal, if_pos hholds, transfer_waiter]
  cases hw : q.waiter c.wakes with
  | none =>
    refine ⟨h.quiet (transfer_lock q c) (transfer_holder q c) (fun t => by rw [transfer_pc])
      (fun t d => by rw [transfer_pc]) (fun w => ?_) (fun t d hd => ?_) hhead htail hbytes, fun t d hd => ?_⟩
    · rw [transfer_waiter]
      cases c <;> cases w <;> first | exact hother | exact hw
    · rw [transfer_pc] at hd
      cases hw.symm.trans ((h.waiter _ t).mpr ⟨d, hd, h.waiter_eq hc hd⟩)
    · rwa [transfer_pc] at hd
  | some u =>
    obtain ⟨d, hd, -⟩ := (h.waiter _ u).mp hw
    show (((q.transfer c).threadUnblock u).map fun q => q.setWaiter none c.wakes).Safe _
    rw [threadUnblock, transfer_pc, hd]
    set q' : Intq τ := ((q.transfer c).move u (.woken d)).setWaiter none c.wakes with hq'
    have hpc : q'.pc = update q.pc u (.woken d) := by simp [hq', move]
    have hlocking : ∀ t e, q'.pc t = .locking e ↔ q.pc t = .locking e := by
      intro t e
      rw [hpc]
      obtain rfl | htu := eq_or_ne t u
      · simp [hd]
      · rw [update_of_ne htu]
    refine ⟨h.quiet (by simp [move]) (by simp [move]) (fun t => ?_) hlocking (fun w => ?_) (fun t e he => ?_)
      (by cases c <;> exact hhead) (by cases c <;> exact htail) (by cases c <;> exact hbytes), fun t e => (hlocking t e).mp⟩
    · rw [hpc]
      obtain rfl | htu := eq_or_ne t u
      · rw [update_self, hd]
        rfl
      · rw [update_of_ne htu]
    · cases c <;> cases w <;> first | exact hother | rfl
    · rw [hpc] at he
      obtain ⟨-, ⟨⟩⟩ | ⟨htu, he⟩ := update_cases he
      have hsome := (h.waiter _ t).mpr ⟨e, he, h.waiter_eq hc he⟩
      exact htu (Option.some.inj (hsome.symm.trans hw))

theorem Inv.acquire_zero (hout : (q.pc t).inside = false) (hplace : q.lock.place t ≠ .waiting)
    (hv : q.lock.sema.value = 0) : (q.acquire t c).Safe Inv := by
  have hdown := h.lock.down hplace
  have hne : ∀ d, q.pc t ≠ .waiting d := fun d hd => by rw [hd] at hout; cases hout
  rw [acquire, Users.down_zero hv]
  rw [Users.down_zero hv] at hdown
  refine ⟨hdown, fun u => ?_, ?_, fun w => ?_, fun u d hd => ?_, h.head, h.tail, h.bytes⟩
  · obtain rfl | hu := eq_or_ne u t
    · simp [move]
    · simpa [move, hu] using h.place u
  · have hinside : ∀ u, (update q.pc t (.locking c) u).inside = (q.pc u).inside :=
      (forall_update_iff q.pc fun u p => p.inside = (q.pc u).inside).mpr ⟨hout.symm, fun _ _ => rfl⟩
    simpa only [move, hinside] using h.owner
  · exact (forall_update_iff q.pc fun u p => q.waiter w = some u ↔ ∃ d, p = .waiting d ∧ d.waiter = w).mpr
      ⟨by simp [h.waiter, hne], fun u _ => h.waiter w u⟩
  · obtain ⟨-, ⟨⟩⟩ | ⟨-, hd⟩ := update_cases hd
    exact h.waits u d hd

theorem Inv.acquire_pos (hplace : q.lock.place t ≠ .waiting) (hv : q.lock.sema.value ≠ 0)
    (hc : q.holds c.waiter = false) : (q.acquire t c).Safe fun q' => Inv q' ∧ NoLocking q q' := by
  obtain ⟨hone, -, hnone⟩ := h.owner.resolve_right fun ⟨_, hzero, _⟩ => hv hzero
  have hwait : ∀ u d, q.pc u ≠ .waiting d := fun u d hd => by
    have hin := hnone u
    rw [hd] at hin
    cases hin
  have hwaiter : ∀ w u, q.waiter w ≠ some u := fun w u hw => by
    obtain ⟨d, hd, -⟩ := (h.waiter w u).mp hw
    exact hwait u d hd
  have hdown := h.lock.down hplace
  rw [acquire, Users.down_pos hv]
  rw [Users.down_pos hv] at hdown
  set lock : Users τ := { q.lock with sema := { q.lock.sema with value := q.lock.sema.value - 1 }
                                      place := update q.lock.place t .outside
                                      downs := q.lock.downs + 1 } with hlock
  set q' : Intq τ := { q with lock := lock, holder := some t } with hq'
  show (q'.wait t c).Safe _
  have hholds : ∀ w, q'.holds w = q.holds w := fun w => by cases w <;> rfl
  rw [Intq.wait, hholds, if_neg (by simp [hc])]
  set q'' : Intq τ := (q'.setWaiter (some t) c.waiter).move t (.waiting c) with hq''
  have hpc : q''.pc = update q.pc t (.waiting c) := by simp [hq'', hq', move]
  have hother : ∀ {u}, u ≠ t → q''.pc u = q.pc u := fun hu => by rw [hpc, update_of_ne hu]
  have hself : q''.pc t = .waiting c := by rw [hpc, update_self]
  have hw'' : ∀ w, q''.waiter w = if w = c.waiter then some t else q.waiter w := fun w => by
    rw [hq'', move_waiter, waiter_setWaiter]
    cases w <;> rfl
  have hh'' : ∀ w, q''.holds w = q.holds w := fun w => by cases c <;> cases w <;> rfl
  have hl'' : q''.lock = lock := by simp [hq'', hq', move]
  refine ⟨⟨hl'' ▸ hdown, fun u => ?_, .inr ⟨t, ?_, ?_, fun u => ?_⟩, fun w u => ?_, fun u d hd => ?_,
    by cases c <;> exact h.head, by cases c <;> exact h.tail, by cases c <;> exact h.bytes⟩, fun u d hd => ?_⟩
  · rw [hl'', hlock]
    obtain rfl | hu := eq_or_ne u t
    · simp [hself]
    · simpa [hother hu, hu] using h.place u
  · rw [hl'', hlock]
    simp [hone]
  · simp [hq'', hq', move]
  · obtain rfl | hu := eq_or_ne u t
    · simp [hself, IntqPc.inside]
    · simp [hother hu, hnone, hu]
  · rw [hw'']
    by_cases hu : u = t <;> by_cases hw : w = c.waiter
    · simp [hu, hself, hw]
    · simp [hu, hself, hw, hwaiter, Ne.symm hw]
    · simp [hother hu, hwait, hw, Ne.symm hu]
    · simp [hother hu, hwait, hw, hwaiter]
  · rw [hh'']
    obtain rfl | hu := eq_or_ne u t
    · cases hself.symm.trans hd
      exact hc
    · exact absurd ((hother hu).symm.trans hd) (hwait u d)
  · obtain rfl | hu := eq_or_ne u t
    · cases hself.symm.trans hd
    · rwa [hother hu] at hd

theorem Inv.acquire (hout : (q.pc t).inside = false) (hplace : q.lock.place t ≠ .waiting)
    (hc : q.lock.sema.value ≠ 0 → q.holds c.waiter = false) :
    (q.acquire t c).Safe fun q' => Inv q' ∧ (q.lock.sema.value ≠ 0 → NoLocking q q') := by
  by_cases hv : q.lock.sema.value = 0
  · exact (h.acquire_zero hout hplace hv).mono fun q' hq' => ⟨hq', fun hne => absurd hv hne⟩
  · exact (h.acquire_pos hplace hv (hc hv)).mono fun q' hq' => ⟨hq'.1, fun _ => hq'.2⟩

/-- The loop of `intq_getc` and `intq_putc`, for a thread that is not in `wait`. -/
theorem Inv.pass (ht : q.pc t = .outside) :
    (q.pass t c).Safe fun q' => Inv q' ∧ (q.holds c.waiter = true ∨ q.lock.sema.value ≠ 0 → NoLocking q q') := by
  have hout : (q.pc t).inside = false := by rw [ht]; rfl
  have hplace : q.lock.place t = .outside := by
    by_contra hne
    obtain ⟨d, hd⟩ := (h.place t).mp hne
    cases ht.symm.trans hd
  have hholder : q.holder ≠ some t := by
    rcases h.owner with ⟨-, hnone, -⟩ | ⟨u, -, hu, hin⟩
    · simp [hnone]
    · intro hself
      have htu : t = u := Option.some.inj (hself.symm.trans hu)
      cases hout.symm.trans ((hin t).mpr htu)
  rw [Intq.pass]
  by_cases hc : q.holds c.waiter = true
  · rw [if_pos hc]
    exact (h.signal hc).mono fun q' hq' => ⟨hq'.1, fun _ => hq'.2⟩
  · rw [if_neg hc, if_neg hholder]
    have hfalse : q.holds c.waiter = false := by simpa using hc
    refine (h.acquire hout (by simp [hplace]) fun _ => hfalse).mono fun q' hq' => ⟨hq'.1, fun hor => ?_⟩
    exact hq'.2 (hor.resolve_left hc)

theorem Inv.release (ht : q.pc t = .woken c) :
    ∃ q', q.release t = .next q' ∧ Inv q' ∧ q'.pc t = .outside ∧ q'.lock.sema.value ≠ 0 ∧ NoLocking q q' := by
  have hin : (q.pc t).inside = true := by rw [ht]; rfl
  obtain ⟨hzero, hholder, hinside⟩ :
      q.lock.sema.value = 0 ∧ q.holder = some t ∧ ∀ r, (q.pc r).inside = true ↔ r = t := by
    rcases h.owner with ⟨-, -, hnone⟩ | ⟨u, hzero, hholder, hinside⟩
    · cases (hnone t).symm.trans hin
    · obtain rfl := (hinside t).mp hin
      exact ⟨hzero, hholder, hinside⟩
  obtain ⟨v, hv, hvinv⟩ := h.lock.up
  obtain ⟨hvalue, -, hplace⟩ := Users.up_effect hv
  have hone : v.sema.value = 1 := by rw [hvalue, hzero]; rfl
  refine ⟨{ q with lock := v, holder := none }.move t .outside, ?_, ⟨hvinv, ?_, .inl ⟨hone, rfl, ?_⟩,
    fun w => ?_, fun u d hd => ?_, h.head, h.tail, h.bytes⟩, update_self .., ?_, fun u d hd => ?_⟩
  · rw [Intq.release, if_pos hholder, hv]
  · refine (forall_update_iff q.pc fun u p => v.place u ≠ .outside ↔ ∃ d, p = .locking d).mpr
      ⟨?_, fun u _ => (not_congr (hplace u)).trans (h.place u)⟩
    rw [ne_eq, hplace]
    have hnot : ¬ ∃ d, q.pc t = .locking d := by simp [ht]
    have hout := mt (h.place t).mp hnot
    simpa using hout
  · refine (forall_update_iff q.pc fun _ p => p.inside = false).mpr ⟨rfl, fun u hu => ?_⟩
    exact Bool.eq_false_iff.mpr fun htrue => hu ((hinside u).mp htrue)
  · exact (forall_update_iff q.pc fun u p => q.waiter w = some u ↔ ∃ d, p = .waiting d ∧ d.waiter = w).mpr
      ⟨by simp [h.waiter, ht], fun u _ => h.waiter w u⟩
  · obtain ⟨-, ⟨⟩⟩ | ⟨-, hd⟩ := update_cases hd
    exact h.waits u d hd
  · show v.sema.value ≠ 0
    rw [hone]
    decide
  · exact ((update_cases hd).resolve_left (by simp)).2

end

/-- A thread that had to wait for the lock gets it, and the queue has changed meanwhile. -/
def Overtaken (q : Intq τ) (a : Action τ) : Prop :=
  ∃ t c, a = .resume t ∧ q.pc t = .locking c ∧ q.lock.place t = .woken ∧ q.lock.sema.value ≠ 0 ∧ q.holds c.waiter = true

omit [DecidableEq τ] in
theorem not_overtaken (hcalm : ∀ t d, q.pc t ≠ .locking d) (a : Action τ) : ¬ q.Overtaken a := by
  rintro ⟨t, d, -, hd, -⟩
  exact hcalm t d hd

/-- Every call that finds the queue empty, or full, finds the lock free. -/
def calm (q : Intq τ) : Action τ → Bool
  | .call _ c => q.holds c.waiter || q.lock.sema.value != 0
  | _ => true

/-- **One step.** Nothing goes wrong but for a thread that was overtaken. -/
theorem Inv.step (h : Inv q) (a : Action τ) (hov : ¬ q.Overtaken a) :
    (q.step a).Safe fun q' => Inv q' ∧ (q.calm a = true → (∀ t d, q.pc t ≠ .locking d) → ∀ t d, q'.pc t ≠ .locking d) := by
  cases a with
  | call t c =>
    refine .ite fun ht => (h.pass ht).mono fun q' hq' => ⟨hq'.1, fun hcalm hno u d hd => ?_⟩
    have hor : q.holds c.waiter = true ∨ q.lock.sema.value ≠ 0 := by simpa [calm] using hcalm
    exact hno u d (hq'.2 hor u d hd)
  | resume t =>
    rw [Intq.step]
    cases ht : q.pc t with
    | outside | waiting c => trivial
    | locking c =>
      refine .ite fun hplace => ?_
      have hfalse : q.lock.sema.value ≠ 0 → q.holds c.waiter = false := fun hv =>
        Bool.eq_false_iff.mpr fun hc => hov ⟨t, c, rfl, ht, hplace, hv, hc⟩
      refine (h.acquire (by rw [ht]; rfl) (by simp [hplace]) hfalse).mono fun q' hq' => ⟨hq'.1, fun _ hno => ?_⟩
      exact absurd ht (hno t c)
    | woken c =>
      obtain ⟨q₁, hq₁, hinv, hout, hv, hlocking⟩ := h.release ht
      simp only [hq₁]
      refine (hinv.pass hout).mono fun q' hq' => ⟨hq'.1, fun _ hno u d hd => ?_⟩
      exact hno u d (hlocking u d (hq'.2 (.inr hv) u d hd))
  | handler c =>
    refine .ite fun hc => (h.signal hc).mono fun q' hq' => ⟨hq'.1, fun _ hno u d hd => ?_⟩
    exact hno u d (hq'.2 u d hd)

/-- A thread that was overtaken fails the assertion of `wait`. -/
theorem Overtaken.fault {a : Action τ} (h : q.Overtaken a) : q.step a = .fault := by
  obtain ⟨t, c, rfl, ht, hplace, hv, hc⟩ := h
  rw [Intq.step, ht]
  simp only [if_pos hplace, acquire, Users.down_pos hv, if_true]
  have hholds : ∀ (lock : Users τ) (holder : Option τ),
    { q with lock := lock, holder := holder }.holds c.waiter = true := by
    intro lock holder
    rw [← hc]
    cases c <;> rfl
  rw [Intq.wait, if_pos (hholds _ _)]

end Steps

/-! ### Runs -/

section Runs

variable [DecidableEq τ] {q : Intq τ}

theorem reach_inv (h : (system (τ := τ)).Reach q) : Inv q := by
  refine h.invariant (fun s hs => hs ▸ intqInit_inv) fun s a s' hs hstep => ?_
  have hov : ¬ s.Overtaken a := fun hov => by cases hov.fault.symm.trans hstep
  exact ((hs.step a hov).of_next hstep).1

theorem calm_reach (h : ((system (τ := τ)).guard calm).Reach q) : ∀ t d, q.pc t ≠ .locking d := by
  have hboth : Inv q ∧ ∀ t d, q.pc t ≠ .locking d := by
    refine h.invariant (P := fun q => Inv q ∧ ∀ t d, q.pc t ≠ .locking d) (fun s hs => ?_) fun s a s' hs hstep => ?_
    · cases hs
      exact ⟨intqInit_inv, by simp [intqInit]⟩
    · obtain ⟨hcalm, hstep⟩ := System.guard_step_eq_next.mp hstep
      have hnext := (hs.1.step a (not_overtaken hs.2 a)).of_next hstep
      exact ⟨hnext.1, hnext.2 hcalm hs.2⟩
  exact hboth.2

/-- **The assertions and the waiters of an interrupt queue.** In every run, an assertion fails
exactly where a thread gets the lock after the queue has changed. Bytes come out in the order in
which they went in, and the thread in `wait` waits for something that does not hold. In runs in
which every call that finds the queue empty, or full, finds the lock free, no assertion fails, and
all threads that wait, for the lock too, wait for something that does not hold. -/
theorem wait_characterised (h : (system (τ := τ)).Reach q) :
    (∀ a, q.step a = .fault ↔ q.Overtaken a) ∧ (∀ t c, q.pc t = .waiting c → q.holds c.waiter = false) ∧
      q.written = q.read ++ Ring.contents intqBufsize q.buf q.head q.tail ∧
      (((system (τ := τ)).guard calm).Reach q → (∀ a, q.step a ≠ .fault) ∧
        ∀ t c, q.pc t = .waiting c ∨ q.pc t = .locking c → q.holds c.waiter = false) := by
  have hinv := reach_inv h
  refine ⟨fun a => ⟨fun hfault => ?_, Overtaken.fault⟩, hinv.waits, hinv.bytes, fun hcalm => ?_⟩
  · by_contra hov
    exact (hinv.step a hov).ne_fault hfault
  · have hno := calm_reach hcalm
    refine ⟨fun a => (hinv.step a (not_overtaken hno a)).ne_fault, fun t c htc => ?_⟩
    exact hinv.waits t c (htc.resolve_right (hno t c))

/-- A calm run in which thread 1 waits for a byte. -/
theorem wait_characterised_reader : ∃ q : Intq ℕ, (system.guard calm).Reach q ∧ q.pc 1 = .waiting .getc ∧
    q.holds .notEmpty = false := by
  let run : List (Action ℕ) := [.call 1 .getc, .call 2 (.putc 7), .resume 1, .call 1 .getc]
  have hrun : ∃ q, (system.guard calm).replay intqInit run = .next q ∧ q.pc 1 = .waiting .getc := ⟨_, rfl, rfl⟩
  obtain ⟨q, hq, hpc⟩ := hrun
  have hreach := System.Reach.replay (.init rfl) hq
  obtain ⟨-, -, -, hcalm⟩ := wait_characterised hreach.of_guard
  exact ⟨q, hreach, hpc, (hcalm hreach).2 1 .getc (.inl hpc)⟩

/-- **The assertion of `wait` fails.** Threads 1 and 2 read from an empty queue: 1 waits with the
lock, 2 for the lock. A byte arrives, which 1 takes, and gives the lock up; another byte arrives;
and 2 gets the lock and finds the queue not empty. -/
theorem wait_fails : ∃ q : Intq ℕ, system.Reach q ∧ q.pc 2 = .locking .getc ∧ q.step (.resume 2) = .fault := by
  let run : List (Action ℕ) := [.call 1 .getc, .call 2 .getc, .handler (.putc 7), .resume 1, .handler (.putc 8)]
  have hrun : ∃ q, system.replay intqInit run = .next q ∧ q.pc 2 = .locking .getc ∧ q.step (.resume 2) = .fault :=
    ⟨_, rfl, rfl, rfl⟩
  obtain ⟨q, hq, hpc, hfault⟩ := hrun
  exact ⟨q, .replay (.init rfl) hq, hpc, hfault⟩

end Runs

/-! ### Calls that need not wait -/

/-- A queue of at most `n` bytes: what a call returns, and the queue after it. A call that would
have to wait has no result. -/
def fifo (n : ℕ) (xs : List UInt8) : IntqCall → Option (Option UInt8 × List UInt8)
  | .getc =>
    match xs with
    | [] => none
    | byte :: xs => some (some byte, xs)
  | .putc byte => if xs.length < n then some (none, xs ++ [byte]) else none

/-- What a call returns. -/
def result (q : Intq τ) : IntqCall → Option UInt8
  | .getc => some (q.buf q.tail)
  | .putc _ => none

/-- `intq_getc` on a queue that is not empty, and `intq_putc` on one that is not full. -/
def serve [DecidableEq τ] (q : Intq τ) (c : IntqCall) : Option (Option UInt8 × Intq τ) :=
  if q.holds c.waiter then
    match (q.transfer c).signal c.wakes with
    | .next q' => some (q.result c, q')
    | _ => none
  else none

/-- Calls one after the other, with what they return. -/
def serveAll {σ : Type} (serve : σ → IntqCall → Option (Option UInt8 × σ)) (s : σ) :
    List IntqCall → Option (List (Option UInt8) × σ)
  | [] => some ([], s)
  | c :: cs => (serve s c).bind fun (r, s) => (serveAll serve s cs).map fun (rs, s) => (r :: rs, s)

/-- The queue has the bytes `xs`, and nobody waits. -/
structure Has (q : Intq τ) (xs : List UInt8) : Prop where
  waiter : ∀ w, q.waiter w = none
  head : q.head < intqBufsize
  tail : q.tail < intqBufsize
  bytes : Ring.contents intqBufsize q.buf q.head q.tail = xs

section Serve

variable {q : Intq τ} {xs : List UInt8}

theorem Has.empty_iff (h : Has q xs) : q.intqEmpty = true ↔ xs = [] := by
  rw [intqEmpty, decide_eq_true_eq, ← h.bytes, Ring.contents_eq_nil_iff _ h.head h.tail]

theorem Has.full_iff (h : Has q xs) : q.intqFull = true ↔ xs.length = intqBufsize - 1 := by
  rw [intqFull, decide_eq_true_eq, ← h.bytes, Ring.length_contents, Ring.next_eq_iff h.head h.tail]

theorem Has.length_lt (h : Has q xs) : xs.length < intqBufsize := by
  rw [← h.bytes, Ring.length_contents]
  exact Nat.mod_lt _ (by decide)

theorem signal_eq [DecidableEq τ] {w : Waiter} (hw : q.waiter w = none) (hq : q.holds w = true) : q.signal w = .next q := by
  rw [signal, if_pos hq, hw]

/-- **A call does to the queue what it does to its bytes.** -/
theorem Has.serve [DecidableEq τ] (h : Has q xs) (c : IntqCall) :
    Option.Rel (fun a b => a.1 = b.1 ∧ Has a.2 b.2) (q.serve c) (fifo (intqBufsize - 1) xs c) := by
  cases c with
  | getc =>
    by_cases hne : q.head = q.tail
    · have hnil := h.empty_iff.mp (decide_eq_true hne)
      have hholds : q.holds .notEmpty = false := by simp [holds, intqEmpty, hne]
      simp [Intq.serve, IntqCall.waiter, hholds, hnil, fifo]
    · have hpop := Ring.contents_pop q.buf h.head h.tail hne
      have hsignal : (q.transfer .getc).signal .notFull = .next (q.transfer .getc) :=
        signal_eq ((transfer_waiter ..).trans (h.waiter _)) (holds_notFull.mpr (Ring.next_ne_next h.head h.tail hne))
      have hserve : q.serve .getc = some (some (q.buf q.tail), q.transfer .getc) := by
        simp only [Intq.serve, IntqCall.waiter, IntqCall.wakes, holds_notEmpty.mpr hne, if_true, hsignal, result]
      rw [hserve, ← h.bytes, hpop]
      exact .some ⟨rfl, fun w => (transfer_waiter ..).trans (h.waiter w), h.head, Ring.next_lt h.tail, rfl⟩
  | putc byte =>
    have hfull := h.full_iff
    have hlt := h.length_lt
    by_cases hne : Ring.next intqBufsize q.head = q.tail
    · have hlen := hfull.mp (decide_eq_true hne)
      have hholds : q.holds .notFull = false := by simp [holds, intqFull, hne]
      simp [Intq.serve, IntqCall.waiter, hholds, hlen, fifo]
    · have hsignal : (q.transfer (.putc byte)).signal .notEmpty = .next (q.transfer (.putc byte)) :=
        signal_eq ((transfer_waiter ..).trans (h.waiter _)) (holds_notEmpty.mpr hne)
      have hserve : q.serve (.putc byte) = some (none, q.transfer (.putc byte)) := by
        simp only [Intq.serve, IntqCall.waiter, IntqCall.wakes, holds_notFull.mpr hne, if_true, hsignal, result]
      have hroom : xs.length < intqBufsize - 1 := by
        have hlen : xs.length ≠ intqBufsize - 1 := fun he => hne (of_decide_eq_true (hfull.mpr he))
        omega
      rw [hserve, fifo, if_pos hroom]
      refine .some ⟨rfl, fun w => (transfer_waiter ..).trans (h.waiter w), Ring.next_lt h.head, h.tail, ?_⟩
      rw [← h.bytes]
      exact Ring.contents_push q.buf byte h.head h.tail hne

/-- Steps that do the same one by one do the same one after the other. -/
theorem serveAll_rel {σ ρ : Type} {R : σ → ρ → Prop} {f : σ → IntqCall → Option (Option UInt8 × σ)}
    {g : ρ → IntqCall → Option (Option UInt8 × ρ)}
    (hstep : ∀ s t c, R s t → Option.Rel (fun a b => a.1 = b.1 ∧ R a.2 b.2) (f s c) (g t c)) {s : σ} {t : ρ} (h : R s t)
    (cs : List IntqCall) : Option.Rel (fun a b => a.1 = b.1 ∧ R a.2 b.2) (serveAll f s cs) (serveAll g t cs) := by
  induction cs generalizing s t with
  | nil => exact .some ⟨rfl, h⟩
  | cons c cs ih =>
    have hc := hstep s t c h
    simp only [serveAll]
    generalize f s c = x, g t c = y at hc
    cases hc with
    | none => exact .none
    | @some a b hab =>
      have hcs := ih hab.2
      simp only [Option.bind_some]
      generalize serveAll f a.2 cs = xs, serveAll g b.2 cs = ys at hcs
      cases hcs with
      | none => exact .none
      | some hrest => exact .some ⟨by simp only [hab.1, hrest.1], hrest.2⟩

theorem intqInit_has : Has (intqInit : Intq τ) [] where
  waiter w := by cases w <;> rfl
  head := Nat.zero_lt_succ _
  tail := Nat.zero_lt_succ _
  bytes := (Ring.contents_eq_nil_iff _ (Nat.zero_lt_succ _) (Nat.zero_lt_succ _)).mpr rfl

/-- **The ring buffer is a queue of `INTQ_BUFSIZE - 1` bytes**: any calls are possible on both or on
neither, and return the same bytes. It is empty when the queue is, and full when the queue has as
many bytes as it may. -/
theorem intq_fifo [DecidableEq τ] (cs : List IntqCall) :
    Option.Rel (fun a b => a.1 = b.1 ∧ (a.2.intqEmpty = true ↔ b.2 = []) ∧
        (a.2.intqFull = true ↔ b.2.length = intqBufsize - 1))
      (serveAll serve (intqInit : Intq τ) cs) (serveAll (fifo (intqBufsize - 1)) [] cs) := by
  have hrel := serveAll_rel (R := Has) (fun _ _ c h => h.serve c) (intqInit_has (τ := τ)) cs
  generalize serveAll serve (intqInit : Intq τ) cs = x, serveAll _ [] cs = y at hrel
  cases hrel with
  | none => exact .none
  | some h => exact .some ⟨h.1, h.2.empty_iff, h.2.full_iff⟩

end Serve

end Intq

end Pintos.Devices
