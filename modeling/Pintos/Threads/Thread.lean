import Pintos.Threads.Synch

/-!
# Threads and the scheduler (`threads/thread.c`, `devices/timer.c`)

A thread is named by the page of its `struct thread`. It is running, ready, blocked or
dying, and it stands on at most one list through `elem` (the run queue, or the queue of a
semaphore) and at most once on `waiting_list` through `waiting_elem`. The functions below
move threads between the lists with interrupts off.

## The model

`Kernel` holds the fields that the scheduler, the semaphores and the timer read and write.
Each function of the source is a function on it that returns the new state or the
assertion that failed. The lists are lists of threads; the walk of `thread_tick` over
`waiting_list` takes the elements of the list it started with one after the other, since
`list_remove` leaves the removed element's own links as they are.

A step is what happens between two points at which interrupts are on, or at which the
processor is given to another thread: a thread that comes back from `thread_block` inside
`sema_down` tests the value before anything else happens. `pc` says where each thread is,
as far as the functions here are concerned; outside of them a thread does what it likes.
`up` is `sema_up` by the running thread or by an interrupt handler. `thread_create` is two
steps (`create` up to `init_thread`, `start` for `thread_unblock`), between which the
creator uses locks and may lose the processor. The runs start in `thread_start`, where the
idle thread is created and the initial thread is going to wait for it. `timer_sleep` is two
steps, since the interrupts are on between the computation of the wake-up time and
`thread_add_to_waiting`; calls whose wake-up time is not an `int64_t` are left out. The
identifiers of threads, their names, priorities and families, the statistics and
the bodies of threads are not part of this model. `log` is history.

What is proved of it is in `Pintos.Threads.ThreadLists` and `Pintos.Threads.Alarm`;
`Pintos.Threads.TickWalk` has the walk over the links.
-/

namespace Pintos.Threads

open Function

/-- `enum thread_status`. -/
inductive ThreadStatus where
  | running
  | ready
  | blocked
  | dying
  deriving DecidableEq

/-- The assertions of the functions below. -/
inductive Assertion where
  /-- `is_thread (t)`. -/
  | isThread
  /-- `t->status == THREAD_RUNNING` in `thread_current`. -/
  | currentRunning
  /-- `t->status == THREAD_BLOCKED` in `thread_unblock`. -/
  | blocked
  /-- `cur->status != THREAD_RUNNING` in `schedule`. -/
  | notRunning
  /-- `prev != cur` in `schedule_tail`. -/
  | prevNotCurrent
  deriving DecidableEq

/-- Where a thread is. -/
inductive KernelPc (S : Type) where
  /-- In its own code. -/
  | run
  /-- The initial thread in `thread_start`, before `sema_down (&idle_started)`. -/
  | boot
  /-- In the loop of `sema_down`, at or after its `thread_block`. -/
  | inDown (sema : S)
  /-- In `timer_sleep`, which computed the wake-up time. -/
  | called (wakeTick : ℤ)
  /-- Blocked in `thread_add_to_waiting`. -/
  | asleep
  /-- Initialized by `thread_create`, and not yet unblocked. -/
  | unborn
  /-- In `idle`, before `idle_thread` is set. -/
  | idleStart
  /-- In `idle`, before `sema_up (idle_started)`. -/
  | idleUp
  | idleLoop
  deriving DecidableEq

/-- Interrupts are on, as far as the thread is concerned. -/
def KernelPc.interruptible {S : Type} : KernelPc S → Bool
  | .inDown _ => false
  | _ => true

/-- What a thread has to do with `timer_sleep`. -/
inductive Phase where
  /-- It is not in `timer_sleep`, or it has been woken. -/
  | awake
  /-- It has computed its wake-up time. -/
  | called (due : ℤ)
  /-- It is on `waiting_list`. -/
  | asleep (due : ℤ)
  deriving DecidableEq

/-- The phase of a thread, by its point and its `wake_tick`. -/
def KernelPc.phase {S : Type} : KernelPc S → ℤ → Phase
  | .called wakeTick, _ => .called wakeTick
  | .asleep, wakeTick => .asleep wakeTick
  | _, _ => .awake

/-- What happens to sleeping threads. -/
inductive SleepEvent where
  /-- Thread `t` calls `timer_sleep (n)` at tick `now`. -/
  | called (t : ℕ) (now n : ℤ)
  /-- Thread `t` joins `waiting_list`. -/
  | joined (t : ℕ)
  /-- A timer interrupt, with the threads that it makes ready. -/
  | interrupt (woken : List ℕ)
  deriving DecidableEq

/-- The threads, the lists and the semaphores `S`. -/
structure Kernel (S : Type) where
  /-- The state of the thread on a page, if there is one. -/
  status : ℕ → Option ThreadStatus
  wakeTick : ℕ → ℤ
  /-- `running_thread ()`. -/
  current : ℕ
  readyList : List ℕ
  waitingList : List ℕ
  sema : S → Semaphore ℕ
  idleThread : Option ℕ
  initialThread : ℕ
  /-- The semaphore that `thread_start` waits at. -/
  idleStarted : S
  threadTicks : ℕ
  ticks : ℤ
  pc : ℕ → KernelPc S
  /-- The thread that a thread is creating. -/
  child : ℕ → Option ℕ
  log : List SleepEvent

namespace Kernel

variable {S : Type}

/-- Write a thread's state. -/
@[simps]
def setStatus (k : Kernel S) (t : ℕ) (status : ThreadStatus) : Kernel S :=
  { k with status := update k.status t (some status) }

/-- Move a thread to a point. -/
@[simps]
def move (k : Kernel S) (t : ℕ) (pc : KernelPc S) : Kernel S := { k with pc := update k.pc t pc }

/-- The phase of a thread. -/
def phase (k : Kernel S) (t : ℕ) : Phase := (k.pc t).phase (k.wakeTick t)

def threadCurrent (k : Kernel S) : Except Assertion ℕ :=
  match k.status k.current with
  | none => .error .isThread
  | some status => if status = .running then .ok k.current else .error .currentRunning

def threadUnblock (k : Kernel S) (t : ℕ) : Except Assertion (Kernel S) :=
  match k.status t with
  | none => .error .isThread
  | some status =>
    if status = .blocked then .ok ({ k with readyList := k.readyList ++ [t] }.setStatus t .ready)
    else .error .blocked

def nextThreadToRun (k : Kernel S) : Option ℕ × Kernel S :=
  match k.readyList with
  | [] => (k.idleThread, k)
  | t :: ts => (some t, { k with readyList := ts })

/-- `schedule_tail`. A page that is freed is no thread any more. -/
def scheduleTail (k : Kernel S) (prev : Option ℕ) : Except Assertion (Kernel S) :=
  let k := { k with threadTicks := 0 }.setStatus k.current .running
  match prev with
  | none => .ok k
  | some prev =>
    if k.status prev = some .dying ∧ prev ≠ k.initialThread then
      if prev = k.current then .error .prevNotCurrent
      else .ok { k with status := update k.status prev none }
    else .ok k

def schedule (k : Kernel S) : Except Assertion (Kernel S) :=
  let cur := k.current
  let (next, k) := k.nextThreadToRun
  if k.status cur = some .running then .error .notRunning
  else
    match next with
    | none => .error .isThread
    | some next =>
      if k.status next = none then .error .isThread
      else scheduleTail { k with current := next } (if cur ≠ next then some cur else none)

def threadBlock (k : Kernel S) : Except Assertion (Kernel S) := do
  let cur ← k.threadCurrent
  (k.setStatus cur .blocked).schedule

def threadYield (k : Kernel S) : Except Assertion (Kernel S) := do
  let cur ← k.threadCurrent
  let k := if some cur ≠ k.idleThread then { k with readyList := k.readyList ++ [cur] } else k
  (k.setStatus cur .ready).schedule

/-- `thread_exit`, after `process_exit`. -/
def threadExit (k : Kernel S) : Except Assertion (Kernel S) := do
  let cur ← k.threadCurrent
  (k.setStatus cur .dying).schedule

/-- `thread_add_to_waiting` up to its `thread_block`. -/
def joinWaiting (k : Kernel S) (f : ℕ) (wakeTick : ℤ) : Kernel S :=
  { k with wakeTick := update k.wakeTick f wakeTick, waitingList := k.waitingList ++ [f] }

def threadAddToWaiting (k : Kernel S) (f : ℕ) (wakeTick : ℤ) : Except Assertion (Kernel S) :=
  (k.joinWaiting f wakeTick).threadBlock

/-- The walk of `thread_tick` over `waiting_list`, with the threads it makes ready. A thread
that is woken has nothing left to do in `timer_sleep`. -/
def wakeThreads (k : Kernel S) : List ℕ → Except Assertion (Kernel S × List ℕ)
  | [] => .ok (k, [])
  | t :: ts =>
    if k.wakeTick t ≤ k.ticks then do
      let k ← k.threadUnblock t
      let (k, woken) ← wakeThreads ({ k with waitingList := k.waitingList.erase t }.move t .run) ts
      return (k, t :: woken)
    else wakeThreads k ts

def timeSlice : ℕ := 1

/-- `thread_tick`, with the answer whether it asks for a yield on return. The current thread is only
read for the statistics; the assertions of `thread_current` on it are left out. -/
def threadTick (k : Kernel S) : Except Assertion (Kernel S × Bool) := do
  let threadTicks := k.threadTicks + 1
  let (k, woken) ← wakeThreads { k with threadTicks := threadTicks } k.waitingList
  return ({ k with log := k.log ++ [SleepEvent.interrupt woken] }, timeSlice ≤ threadTicks)

/-- `timer_interrupt`, and the yield on return from the interrupt. -/
def timerInterrupt (k : Kernel S) : Except Assertion (Kernel S) := do
  let (k, yieldOnReturn) ← threadTick { k with ticks := k.ticks + 1 }
  if yieldOnReturn then k.threadYield else return k

section Semaphores

variable [DecidableEq S]

def setSema (k : Kernel S) (sema : S) (value : Semaphore ℕ) : Kernel S :=
  { k with sema := update k.sema sema value }

/-- A pass of the loop of `sema_down` by the running thread. -/
def semaDown (k : Kernel S) (sema : S) : Except Assertion (Kernel S) := do
  let cur ← k.threadCurrent
  let (value, success) := Threads.semaDown (k.sema sema) cur
  let k := k.setSema sema value
  if success then .ok (k.move cur .run) else (k.move cur (.inDown sema)).threadBlock

def semaTryDown (k : Kernel S) (sema : S) : Kernel S :=
  k.setSema sema (Threads.semaTryDown (k.sema sema)).1

def semaUp (k : Kernel S) (sema : S) : Except Assertion (Kernel S) := do
  let (value, popped) := Threads.semaUp (k.sema sema)
  let k := k.setSema sema value
  match popped with
  | none => return k
  | some t => k.threadUnblock t

end Semaphores

/-! ### The system -/

/-- What happens next. -/
inductive Action (S : Type) where
  /-- `thread_create` up to `init_thread`, with the page it got. -/
  | create (page : ℕ)
  /-- The `thread_unblock` of `thread_create`. -/
  | start
  /-- `thread_yield`. -/
  | yield
  /-- A pass of the loop of `sema_down`. -/
  | down (sema : S)
  | tryDown (sema : S)
  /-- `sema_up`, by the running thread or an interrupt handler. -/
  | up (sema : S)
  /-- `timer_sleep` up to the wake-up time. -/
  | sleep (n : ℤ)
  /-- `thread_add_to_waiting`. -/
  | join
  /-- A timer interrupt. -/
  | tick
  /-- `thread_exit`. -/
  | exit
  /-- `idle` sets `idle_thread`. -/
  | setIdle
  /-- `idle` ups `idle_started`. -/
  | idleUp
  | idleBlock
  deriving DecidableEq

/-- What a function of the source leads to. -/
def outcome (r : Except Assertion (Kernel S)) : Outcome (Kernel S) :=
  match r with
  | .ok k => .next k
  | .error _ => .fault

/-- The running thread may pass the loop of `sema_down` of a semaphore. -/
def mayDown [DecidableEq S] (k : Kernel S) (sema : S) : KernelPc S → Bool
  | .run => true
  | .boot => sema = k.idleStarted
  | .inDown sema' => sema = sema'
  | _ => false

def step [DecidableEq S] (k : Kernel S) : Action S → Outcome (Kernel S)
  | .create page =>
    if k.pc k.current = .run ∧ k.child k.current = none ∧ k.status page = none then
      .next ({ k with
        wakeTick := update k.wakeTick page 0
        child := update k.child k.current (some page) }.setStatus page .blocked |>.move page .unborn)
    else .disabled
  | .start =>
    match k.child k.current with
    | some page =>
      if k.pc k.current = .run then
        outcome ({ k with child := update k.child k.current none }.move page .run |>.threadUnblock page)
      else .disabled
    | none => .disabled
  | .yield => if k.pc k.current = .run then outcome k.threadYield else .disabled
  | .down sema => if k.mayDown sema (k.pc k.current) then outcome (k.semaDown sema) else .disabled
  | .tryDown sema => if k.pc k.current = .run then .next (k.semaTryDown sema) else .disabled
  | .up sema => if (k.pc k.current).interruptible then outcome (k.semaUp sema) else .disabled
  | .sleep n =>
    if k.pc k.current = .run then
      if n < 0 then .next k
      else if k.ticks + n < 2 ^ 63 then
        .next ({ k with log := k.log ++ [SleepEvent.called k.current k.ticks n] }.move k.current (.called (k.ticks + n)))
      else .disabled
    else .disabled
  | .join =>
    match k.pc k.current with
    | .called wakeTick =>
      outcome (({ k with log := k.log ++ [SleepEvent.joined k.current] }.move k.current .asleep).threadAddToWaiting
        k.current wakeTick)
    | _ => .disabled
  | .tick => if (k.pc k.current).interruptible then outcome k.timerInterrupt else .disabled
  | .exit =>
    if k.pc k.current = .run ∧ k.child k.current = none then outcome k.threadExit else .disabled
  | .setIdle =>
    if k.pc k.current = .idleStart then .next ({ k with idleThread := some k.current }.move k.current .idleUp)
    else .disabled
  | .idleUp =>
    if k.pc k.current = .idleUp then outcome ((k.move k.current .idleLoop).semaUp k.idleStarted) else .disabled
  | .idleBlock => if k.pc k.current = .idleLoop then outcome k.threadBlock else .disabled

/-- In `thread_start`: the initial thread runs, the idle thread is created and ready, and
`idle_started` is 0. Other semaphores have any value. -/
structure Init (k : Kernel S) : Prop where
  idle : ∃ idle, idle ≠ k.initialThread ∧ k.readyList = [idle] ∧
    k.status = update (update (fun _ => none) k.initialThread (some .running)) idle (some .ready) ∧
    k.pc = update (update (fun _ => .run) k.initialThread .boot) idle .idleStart
  current : k.current = k.initialThread
  waitingList : k.waitingList = []
  waiters : ∀ sema, (k.sema sema).waiters = []
  idleStarted : (k.sema k.idleStarted).value = 0
  idleThread : k.idleThread = none
  child : ∀ t, k.child t = none
  ticks : k.ticks = 0
  log : k.log = []

/-- A state to start in: the initial thread is on page 0 and the idle thread on page 1. -/
def boot [Inhabited S] : Kernel S where
  status := update (update (fun _ => none) 0 (some .running)) 1 (some .ready)
  wakeTick _ := 0
  current := 0
  readyList := [1]
  waitingList := []
  sema _ := Threads.semaInit 0
  idleThread := none
  initialThread := 0
  idleStarted := default
  threadTicks := 0
  ticks := 0
  pc := update (update (fun _ => .run) 0 .boot) 1 .idleStart
  child _ := none
  log := []

theorem boot_init [Inhabited S] : Init (boot : Kernel S) where
  idle := ⟨1, Nat.one_ne_zero, rfl, rfl, rfl⟩
  current := rfl
  waitingList := rfl
  waiters _ := rfl
  idleStarted := rfl
  idleThread := rfl
  child _ := rfl
  ticks := rfl
  log := rfl

/-- The runs of the kernel. -/
def system [DecidableEq S] : System (Kernel S) (Action S) where
  init := Init
  step := step

end Kernel

end Pintos.Threads
