import Pintos.Basis.Fifo
import Pintos.Threads.ThreadLists

/-!
# The order of the scheduler (`threads/thread.c`)

Threads come to `ready_list` at its end, by `thread_unblock` or `thread_yield`, and `schedule` takes
them from its front. So the scheduler is a queue, with the idle thread for the times when it is
empty (`Pintos.Basis.Fifo`).

## The model

The threads and the functions are those of `Pintos.Threads.Thread`. Besides the steps there, a
thread may call `thread_block` on its own, and the running thread or an interrupt handler may call
`thread_unblock` for a thread that did so, as the drivers do. `SchedAction.events` says what a step
does to the queue, in the order in which the source does it: the threads it appends, and the thread
that `schedule` picks. That these are the events, and that they happen to the queue, is `Inv.moved`:
the run queue and the running thread after a step are what the events make of them.

## What is proved

**`scheduler_fifo`**: in every run from the moment on at which `idle_thread` is set, which is before
`thread_start` returns, a thread that is appended is dispatched after exactly the threads that stood
before it, in their order; nobody is dispatched twice while another thread stays on the run queue;
and the idle thread is dispatched only while the run queue is empty.
-/

namespace Pintos.Threads.Kernel

open Fifo (Event dispatched)

variable {S : Type}

/-! ### The events -/

/-- What `schedule` does: it dispatches a thread. -/
def scheduled (k : Kernel S) : List (Event ℕ) :=
  match k.nextThreadToRun.1 with
  | some next => [.dispatch next]
  | none => []

/-- What `thread_yield` does. -/
def yielded (k : Kernel S) : List (Event ℕ) :=
  if some k.current ≠ k.idleThread then
    .append k.current :: scheduled { k with readyList := k.readyList ++ [k.current] }
  else scheduled k

/-- What `sema_up` does. -/
def upped (k : Kernel S) (sema : S) : List (Event ℕ) :=
  match (Threads.semaUp (k.sema sema)).2 with
  | some t => [.append t]
  | none => []

/-- What a timer interrupt does. -/
def ticked (k : Kernel S) : List (Event ℕ) :=
  match wakeThreads { k with ticks := k.ticks + 1, threadTicks := k.threadTicks + 1 } k.waitingList with
  | .ok (k', woken) => woken.map .append ++ if timeSlice ≤ k.threadTicks + 1 then yielded k' else []
  | .error _ => []

/-- What a step of the kernel does to the run queue. -/
def Action.events (k : Kernel S) : Action S → List (Event ℕ)
  | .create _ | .tryDown _ | .sleep _ | .setIdle => []
  | .start =>
    match k.child k.current with
    | some page => [.append page]
    | none => []
  | .yield => yielded k
  | .down sema => if (Threads.semaDown (k.sema sema) k.current).2 then [] else scheduled k
  | .up sema => upped k sema
  | .tick => ticked k
  | .idleUp => upped k k.idleStarted
  | .join | .exit | .idleBlock => scheduled k

/-- What happens next. -/
inductive SchedAction (S : Type) where
  /-- A step of the kernel. -/
  | kernel (a : Action S)
  /-- The running thread calls `thread_block`. -/
  | block
  /-- `thread_unblock` for a thread that did. -/
  | unblock (t : ℕ)
  deriving DecidableEq

def schedStep [DecidableEq S] (k : Kernel S) : SchedAction S → Outcome (Kernel S)
  | .kernel a => k.step a
  | .block => if k.pc k.current = .run then outcome k.threadBlock else .disabled
  | .unblock t =>
    if (k.pc k.current).interruptible ∧ k.pc t = .run ∧ k.status t = some .blocked then outcome (k.threadUnblock t)
    else .disabled

/-- What it does to the run queue. -/
def SchedAction.events (k : Kernel S) : SchedAction S → List (Event ℕ)
  | .kernel a => a.events k
  | .block => scheduled k
  | .unblock t => [.append t]

/-- The runs of the scheduler. -/
def schedSystem [DecidableEq S] : System (Kernel S) (SchedAction S) where
  init := Init
  step := schedStep

/-- A run from one state to another, and what happens to the run queue. -/
inductive Runs [DecidableEq S] : Kernel S → List (Event ℕ) → Kernel S → Prop where
  | nil (k : Kernel S) : Runs k [] k
  | step {k m k' : Kernel S} {es : List (Event ℕ)} {a : SchedAction S} (run : Runs k es m)
    (hstep : m.schedStep a = .next k') : Runs k (es ++ a.events m) k'

/-! ### The functions do what the events say -/

/-- The run queue and the running thread after the events. -/
structure Moved (idle : ℕ) (k : Kernel S) (es : List (Event ℕ)) (k' : Kernel S) : Prop where
  queue : Fifo.Run idle k.readyList es k'.readyList
  current : k'.current = (dispatched es).getLastD k.current
  idle : k'.idleThread = k.idleThread

/-- The run queue, the running thread and the idle thread are the same. -/
structure SameQueue (k k' : Kernel S) : Prop where
  queue : k'.readyList = k.readyList
  current : k'.current = k.current
  idle : k'.idleThread = k.idleThread

section Functions

variable {k k' m : Kernel S} {es es' : List (Event ℕ)} {idle t : ℕ}

theorem Moved.of_same (h : SameQueue k k') : Moved idle k [] k' := ⟨h.queue ▸ .nil _, h.current, h.idle⟩

theorem Moved.trans (h : Moved idle k es m) (h' : Moved idle m es' k') : Moved idle k (es ++ es') k' where
  queue := h.queue.trans h'.queue
  current := by
    rw [h'.current, h.current, Fifo.dispatched_append]
    simp [List.getLastD_eq_getLast?, List.getLast?_append, Option.getD_or]
  idle := h'.idle.trans h.idle

theorem Moved.congr (h : Moved idle m es k') (hsame : SameQueue k m) : Moved idle k es k' :=
  ⟨hsame.queue ▸ h.queue, hsame.current ▸ h.current, h.idle.trans hsame.idle⟩

theorem threadUnblock_eq_ok (h : k.threadUnblock t = .ok k') :
    k.status t = some .blocked ∧ k' = { k with readyList := k.readyList ++ [t] }.setStatus t .ready := by
  unfold threadUnblock at h
  split at h
  · cases h
  · rename_i status hs
    split at h
    · rename_i hb
      cases h
      exact ⟨by rw [hs, hb], rfl⟩
    · cases h

/-- Whoever is on the run queue is ready. -/
def AllReady (k : Kernel S) : Prop := ∀ t ∈ k.readyList, k.status t = some .ready

theorem threadUnblock_moved (h : k.threadUnblock t = .ok k') (hready : AllReady k) (hidle : t ≠ idle) :
    Moved idle k [.append t] k' := by
  obtain ⟨hblocked, rfl⟩ := threadUnblock_eq_ok h
  refine ⟨.single (.append (fun hmem => ?_) hidle), rfl, rfl⟩
  rw [hready t hmem] at hblocked
  cases hblocked

theorem scheduleTail_same {prev : Option ℕ} (h : k.scheduleTail prev = .ok k') : SameQueue k k' := by
  unfold scheduleTail at h
  simp only at h
  repeat' split at h
  all_goals cases h
  all_goals exact ⟨rfl, rfl, rfl⟩

theorem schedule_moved (h : k.schedule = .ok k') (hi : k.idleThread = some idle) : Moved idle k (scheduled k) k' := by
  unfold schedule nextThreadToRun at h
  unfold scheduled nextThreadToRun
  cases hq : k.readyList with
  | nil =>
    simp only [hq, hi] at h ⊢
    repeat' split at h
    all_goals first | (cases h; done) | skip
    all_goals
      obtain ⟨hr, hc, hi'⟩ := scheduleTail_same h
      refine ⟨?_, hc, hi'.trans hi.symm⟩
      rw [hr, hq]
      exact .single .idle
  | cons next rest =>
    simp only [hq] at h ⊢
    repeat' split at h
    all_goals first | (cases h; done) | skip
    all_goals
      obtain ⟨hr, hc, hi'⟩ := scheduleTail_same h
      refine ⟨?_, hc, hi'⟩
      rw [hr, hq]
      exact .single .dispatch

theorem scheduled_congr (hsame : SameQueue k m) : scheduled m = scheduled k := by
  obtain ⟨hq, -, hi⟩ := hsame
  unfold scheduled nextThreadToRun
  cases hk : k.readyList with
  | nil => simp only [hq, hk, hi]
  | cons next rest => simp only [hq, hk]

theorem yielded_congr (hsame : SameQueue k m) : yielded m = yielded k := by
  obtain ⟨hq, hc, hi⟩ := hsame
  have happend : scheduled { m with readyList := m.readyList ++ [m.current] } =
      scheduled { k with readyList := k.readyList ++ [k.current] } := scheduled_congr ⟨by rw [hq, hc], hc, hi⟩
  unfold yielded
  rw [happend, scheduled_congr ⟨hq, hc, hi⟩, hc, hi]

theorem Moved.schedule (h : m.schedule = .ok k') (hi : k.idleThread = some idle) (hsame : SameQueue k m) :
    Moved idle k (scheduled k) k' := by
  rw [← scheduled_congr hsame]
  exact (schedule_moved h (hsame.idle.trans hi)).congr hsame

theorem leave_moved {status : ThreadStatus}
    (h : (k.threadCurrent.bind fun cur => (k.setStatus cur status).schedule) = .ok k') (hi : k.idleThread = some idle) :
    Moved idle k (scheduled k) k' := by
  unfold threadCurrent at h
  repeat' split at h
  all_goals first | cases h | skip
  exact .schedule (m := k.setStatus k.current status) h hi ⟨rfl, rfl, rfl⟩

theorem threadBlock_moved (h : k.threadBlock = .ok k') (hi : k.idleThread = some idle) : Moved idle k (scheduled k) k' :=
  leave_moved h hi

theorem Moved.block (h : m.threadBlock = .ok k') (hi : k.idleThread = some idle) (hsame : SameQueue k m) :
    Moved idle k (scheduled k) k' := by
  rw [← scheduled_congr hsame]
  exact (threadBlock_moved h (hsame.idle.trans hi)).congr hsame

theorem threadExit_moved (h : k.threadExit = .ok k') (hi : k.idleThread = some idle) : Moved idle k (scheduled k) k' :=
  leave_moved h hi

theorem threadYield_moved (h : k.threadYield = .ok k') (hi : k.idleThread = some idle) (hnew : k.current ∉ k.readyList) :
    Moved idle k (yielded k) k' := by
  unfold threadYield threadCurrent at h
  unfold yielded
  repeat' split at h
  all_goals first | cases h | skip
  have hsched : ((if some k.current ≠ k.idleThread then { k with readyList := k.readyList ++ [k.current] } else k).setStatus
      k.current .ready).schedule = .ok k' := h
  by_cases hidle : some k.current ≠ k.idleThread
  · rw [if_pos hidle] at hsched ⊢
    have hne : k.current ≠ idle := fun he => hidle (by rw [he, hi])
    have happend : Moved idle k [.append k.current] { k with readyList := k.readyList ++ [k.current] } :=
      ⟨.single (.append hnew hne), rfl, rfl⟩
    exact happend.trans (.schedule hsched hi ⟨rfl, rfl, rfl⟩)
  · rw [if_neg hidle] at hsched ⊢
    exact .schedule hsched hi ⟨rfl, rfl, rfl⟩

theorem dispatched_map_append (l : List ℕ) : dispatched (l.map .append) = [] := by
  induction l with
  | nil => rfl
  | cons t l ih => exact ih

theorem wakeThreads_moved {l woken : List ℕ} (h : k.wakeThreads l = .ok (k', woken)) (hready : AllReady k)
    (hl : ∀ t ∈ l, t ≠ idle) :
    Moved idle k (woken.map .append) k' ∧ AllReady k' ∧ ∀ u, k.status u = some .running → k'.status u = some .running := by
  induction l generalizing k woken with
  | nil =>
    cases h
    exact ⟨.of_same ⟨rfl, rfl, rfl⟩, hready, fun _ => id⟩
  | cons t l ih =>
    have hrest : ∀ u ∈ l, u ≠ idle := fun u hu => hl u (List.mem_cons_of_mem _ hu)
    rw [wakeThreads] at h
    split at h
    · cases hu : k.threadUnblock t with
      | error e =>
        rw [hu] at h
        cases h
      | ok m =>
        have hmoved := threadUnblock_moved hu hready (hl t List.mem_cons_self)
        obtain ⟨hblocked, hm⟩ := threadUnblock_eq_ok hu
        rw [hu] at h
        have hbind : ((wakeThreads ({ m with waitingList := m.waitingList.erase t }.move t .run) l).bind
            fun r => .ok (r.1, t :: r.2)) = .ok (k', woken) := h
        cases hw : wakeThreads ({ m with waitingList := m.waitingList.erase t }.move t .run) l with
        | error e =>
          rw [hw] at hbind
          cases hbind
        | ok r =>
          rw [hw] at hbind
          cases hbind
          subst hm
          have hready' : AllReady ({ k with readyList := k.readyList ++ [t] }.setStatus t .ready) := by
            intro u hmem
            obtain rfl | hut := eq_or_ne u t
            · exact Function.update_self ..
            · refine (Function.update_of_ne hut ..).trans (hready u ?_)
              simpa [hut] using hmem
          obtain ⟨hmoved', hready'', hrun⟩ := ih hw hready' hrest
          refine ⟨hmoved.trans (hmoved'.congr ⟨rfl, rfl, rfl⟩), hready'', fun u hcur => hrun u ?_⟩
          refine (Function.update_of_ne ?_ ..).trans hcur
          rintro rfl
          cases hblocked.symm.trans hcur
    · exact ih h hready hrest

end Functions

/-! ### Steps -/

section Steps

variable {k k' : Kernel S} {idle : ℕ} {r : Option ℕ}

theorem Inv.allReady (h : Inv k r) : AllReady k := fun t ht => ((h.placed t).ready.mp ht).1

theorem Inv.queue_ok (h : Inv k r) (hi : k.idleThread = some idle) : Fifo.Ok idle k.readyList where
  nodup := h.readyNodup
  idle hmem := ((h.placed idle).ready.mp hmem).2 hi

theorem Inv.ne_idle (h : Inv k r) (hi : k.idleThread = some idle) {t : ℕ} (hup : k.pc t ≠ .idleUp)
    (hloop : k.pc t ≠ .idleLoop) : t ≠ idle := by
  rintro rfl
  exact (h.placed t).not_idle hup hloop hi

theorem outcome_eq_next {r : Except Assertion (Kernel S)} : outcome r = .next k' ↔ r = .ok k' := by
  cases r <;> simp [outcome]

theorem Inv.tick_moved (h : Inv k (some k.current)) (hi : k.idleThread = some idle) (hk : k.timerInterrupt = .ok k') :
    Moved idle k (ticked k) k' := by
  have hslice : timeSlice ≤ k.threadTicks + 1 := Nat.le_add_left 1 _
  have hidle : ∀ t ∈ k.waitingList, t ≠ idle := by
    intro t ht
    have hpc := (h.placed t).sleeper.mp ht
    exact h.ne_idle hi (by simp [hpc]) (by simp [hpc])
  unfold ticked
  cases hw : Kernel.wakeThreads { k with ticks := k.ticks + 1, threadTicks := k.threadTicks + 1 } k.waitingList with
  | error e =>
    have herr : k.timerInterrupt = .error e := by
      rw [Kernel.timerInterrupt, Kernel.threadTick]
      rw [hw]
      rfl
    cases herr.symm.trans hk
  | ok r =>
    have htick : Kernel.threadTick { k with ticks := k.ticks + 1 } =
        .ok ({ r.1 with log := r.1.log ++ [SleepEvent.interrupt r.2] }, true) := by
      rw [Kernel.threadTick]
      rw [hw]
      show Except.ok (_, decide (timeSlice ≤ k.threadTicks + 1)) = _
      rw [decide_eq_true hslice]
    have hyield : k.timerInterrupt = Kernel.threadYield { r.1 with log := r.1.log ++ [SleepEvent.interrupt r.2] } := by
      rw [Kernel.timerInterrupt, htick]
      rfl
    rw [hyield] at hk
    obtain ⟨hmoved, hready, hrun⟩ := wakeThreads_moved hw h.allReady hidle
    have hmoved : Moved idle k (r.2.map .append) r.1 := hmoved.congr ⟨rfl, rfl, rfl⟩
    have hcur : r.1.current = k.current := by
      rw [hmoved.current, dispatched_map_append]
      rfl
    have hnew : r.1.current ∉ r.1.readyList := fun hmem => by
      have hstatus := hready _ hmem
      rw [hcur, hrun k.current h.status_current] at hstatus
      cases hstatus
    dsimp only
    have hidle' := hmoved.idle.trans hi
    have hsame : yielded { r.1 with log := r.1.log ++ [SleepEvent.interrupt r.2] } = yielded r.1 :=
      yielded_congr ⟨rfl, rfl, rfl⟩
    rw [← hsame]
    exact hmoved.trans ((threadYield_moved hk hidle' hnew).congr ⟨rfl, rfl, rfl⟩)

variable [DecidableEq S]

theorem semaUp_moved {sema : S} (hk : k.semaUp sema = .ok k') (hready : AllReady k)
    (hidle : ∀ t ∈ (k.sema sema).waiters, t ≠ idle) : Moved idle k (upped k sema) k' := by
  unfold Kernel.semaUp Threads.semaUp at hk
  unfold upped Threads.semaUp
  cases hw : (k.sema sema).waiters with
  | nil =>
    simp only [hw] at hk ⊢
    cases hk
    exact .of_same ⟨rfl, rfl, rfl⟩
  | cons t ts =>
    simp only [hw] at hk ⊢
    exact (threadUnblock_moved hk hready (hidle t (hw ▸ List.mem_cons_self))).congr ⟨rfl, rfl, rfl⟩

omit [DecidableEq S] in
theorem Inv.waiter_ne_idle (h : Inv k (some k.current)) (hi : k.idleThread = some idle) (sema : S) :
    ∀ t ∈ (k.sema sema).waiters, t ≠ idle := by
  intro t ht
  have hpc := ((h.placed t).waiters sema ht).2
  exact h.ne_idle hi (by simp [hpc]) (by simp [hpc])

theorem Inv.down_moved (h : Inv k (some k.current)) (hi : k.idleThread = some idle) {sema : S}
    (hk : k.semaDown sema = .ok k') :
    Moved idle k (if (Threads.semaDown (k.sema sema) k.current).2 then [] else scheduled k) k' := by
  rw [semaDown_eq h.status_current] at hk
  split at hk
  · rename_i hok
    cases hk
    rw [if_pos hok]
    exact .of_same ⟨rfl, rfl, rfl⟩
  · rename_i hok
    rw [if_neg hok]
    exact .block hk hi ⟨rfl, rfl, rfl⟩

section

variable (h : Inv k (some k.current))
include h

/-- **A step of the kernel does to the run queue what its events say.** -/
theorem Inv.step_moved (hi : k.idleThread = some idle) {a : Action S}
    (hs : k.step a = .next k') : Moved idle k (a.events k) k' := by
  cases a with
  | create page | tryDown sema =>
    simp only [Kernel.step] at hs
    split at hs <;> cases hs
    exact .of_same ⟨rfl, rfl, rfl⟩
  | start =>
    cases hc : k.child k.current with
    | none =>
      simp only [Kernel.step, hc] at hs
      cases hs
    | some page =>
      simp only [Kernel.step, hc] at hs
      split at hs
      · have hunborn := ((h.placed page).child _ hc).2
        have hne := h.ne_idle hi (t := page) (by simp [hunborn]) (by simp [hunborn])
        have hmoved := threadUnblock_moved (outcome_eq_next.mp hs) h.allReady hne
        simp only [Action.events, hc]
        exact hmoved.congr ⟨rfl, rfl, rfl⟩
      · cases hs
  | yield =>
    obtain ⟨-, hs⟩ := Outcome.ite_eq_next.mp hs
    exact threadYield_moved (outcome_eq_next.mp hs) hi (h.placed k.current).loose_running.ready
  | down sema =>
    obtain ⟨-, hs⟩ := Outcome.ite_eq_next.mp hs
    exact h.down_moved hi (outcome_eq_next.mp hs)
  | up sema =>
    obtain ⟨-, hs⟩ := Outcome.ite_eq_next.mp hs
    exact semaUp_moved (outcome_eq_next.mp hs) h.allReady (h.waiter_ne_idle hi sema)
  | sleep n =>
    simp only [Kernel.step] at hs
    repeat' split at hs
    all_goals cases hs
    all_goals exact .of_same ⟨rfl, rfl, rfl⟩
  | join =>
    simp only [Kernel.step] at hs
    split at hs
    · exact .block (outcome_eq_next.mp hs) hi ⟨rfl, rfl, rfl⟩
    · cases hs
  | tick =>
    obtain ⟨-, hs⟩ := Outcome.ite_eq_next.mp hs
    exact h.tick_moved hi (outcome_eq_next.mp hs)
  | exit =>
    obtain ⟨-, hs⟩ := Outcome.ite_eq_next.mp hs
    exact threadExit_moved (outcome_eq_next.mp hs) hi
  | setIdle =>
    obtain ⟨hpc, hs⟩ := Outcome.ite_eq_next.mp hs
    cases ((h.placed k.current).start hpc).1.symm.trans hi
  | idleUp =>
    obtain ⟨-, hs⟩ := Outcome.ite_eq_next.mp hs
    have hmoved := semaUp_moved (outcome_eq_next.mp hs) h.allReady (h.waiter_ne_idle hi k.idleStarted)
    exact hmoved.congr ⟨rfl, rfl, rfl⟩
  | idleBlock =>
    obtain ⟨-, hs⟩ := Outcome.ite_eq_next.mp hs
    exact threadBlock_moved (outcome_eq_next.mp hs) hi

/-- `thread_block` and `thread_unblock`, called by a driver, keep the lists consistent. -/
theorem Inv.schedStep (a : SchedAction S) :
    (k.schedStep a).Safe fun k' => Inv k' (some k'.current) := by
  cases a with
  | kernel a => exact (h.step a).mono fun _ hgood => hgood.1
  | block =>
    refine .ite fun hpc => ?_
    obtain ⟨k', hk', hinv, -⟩ := threadBlock_ok h.status_current (h.leave (by simp [hpc]) (.inl rfl))
    exact outcome_safe hk' hinv
  | unblock t =>
    refine .ite fun ⟨_, hpc, hblocked⟩ => ?_
    have hp := h.placed t
    have hl : k.Loose t := by
      refine ⟨fun hmem => ?_, fun sema hmem => ?_, fun hmem => ?_, fun u hu => ?_⟩
      · cases hblocked.symm.trans (hp.ready.mp hmem).1
      · cases hpc.symm.trans (hp.waiters sema hmem).2
      · cases hpc.symm.trans (hp.sleeper.mp hmem)
      · cases hpc.symm.trans (hp.child u hu).2
    obtain ⟨k', hk', rfl, hinv⟩ := h.unblock hl hblocked (hp.not_idle (by simp [hpc]) (by simp [hpc]))
    exact outcome_safe hk' hinv

/-- **A step does to the run queue what its events say.** -/
theorem Inv.moved (hi : k.idleThread = some idle) {a : SchedAction S}
    (hs : k.schedStep a = .next k') : Moved idle k (a.events k) k' := by
  cases a with
  | kernel a => exact h.step_moved hi hs
  | block =>
    obtain ⟨-, hs⟩ := Outcome.ite_eq_next.mp hs
    exact threadBlock_moved (outcome_eq_next.mp hs) hi
  | unblock t =>
    obtain ⟨hc, hs⟩ := Outcome.ite_eq_next.mp hs
    have hne := h.ne_idle hi (t := t) (by simp [hc.2.1]) (by simp [hc.2.1])
    exact threadUnblock_moved (outcome_eq_next.mp hs) h.allReady hne

end

theorem Runs.moved {es : List (Event ℕ)} (hrun : Runs k es k') (h : Inv k (some k.current))
    (hi : k.idleThread = some idle) :
    Moved idle k es k' ∧ Inv k' (some k'.current) := by
  induction hrun with
  | nil => exact ⟨.of_same ⟨rfl, rfl, rfl⟩, h⟩
  | step _ hstep ih =>
    obtain ⟨hmoved, hinv⟩ := ih
    exact ⟨hmoved.trans (hinv.moved (hmoved.idle.trans hi) hstep), (hinv.schedStep _).of_next hstep⟩

theorem sched_inv (h : schedSystem.Reach k) : Inv k (some k.current) :=
  h.invariant (P := fun k => Inv k (some k.current)) (fun _ hinit => Init.inv hinit)
    fun _ a _ hm hs => (hm.schedStep a).of_next hs

/-- **The scheduler is a queue.** -/
theorem scheduler_fifo (h : schedSystem.Reach k) (hi : k.idleThread = some idle)
    {es : List (Event ℕ)} (hrun : Runs k es k') :
    -- the events are what happens to the run queue and the running thread
    (Fifo.Run idle k.readyList es k'.readyList ∧ k'.current = (dispatched es).getLastD k.current) ∧
    -- a thread that is appended is dispatched after those that stand before it, in their order, and after no others
    (∀ es₁ t es₂, es = es₁ ++ .append t :: es₂ → ∃ q, Fifo.Run idle k.readyList es₁ q ∧ (q ++ [t]).Nodup ∧
      (dispatched es₂ <+: q ++ [t] ∨ q ++ [t] <+: dispatched es₂)) ∧
    -- nobody is dispatched twice while a thread stays on the run queue
    (∀ es₁ es₂ es₃ q u, es = es₁ ++ es₂ ++ es₃ → Fifo.Run idle k.readyList es₁ q → Fifo.Stays idle u q es₂ →
      (dispatched es₂).Nodup) ∧
    -- the idle thread is dispatched only when the run queue is empty
    ∀ es₁ es₂ q, es = es₁ ++ .dispatch idle :: es₂ → Fifo.Run idle k.readyList es₁ q → q = [] := by
  have hinv := sched_inv h
  obtain ⟨hmoved, -⟩ := hrun.moved hinv hi
  have hok := hinv.queue_ok hi
  refine ⟨⟨hmoved.queue, hmoved.current⟩, ?_, ?_, ?_⟩
  · rintro es₁ t es₂ rfl
    obtain ⟨q, hq, hrest⟩ := hmoved.queue.split
    cases hrest with
    | cons step rest =>
      have hq' := step.ok (hq.ok hok)
      cases step with
      | append => exact ⟨q, hq, hq'.nodup, rest.dispatched_comparable⟩
  · rintro es₁ es₂ es₃ q u rfl hq hstay
    obtain ⟨m, hm, -⟩ := hmoved.queue.split
    obtain ⟨q', hq', hm'⟩ := hm.split
    obtain rfl := hq.unique hq'
    exact hm'.nodup_dispatched (hq.ok hok) hstay
  · rintro es₁ es₂ q rfl hq
    obtain ⟨q', hq', hrest⟩ := hmoved.queue.split
    obtain rfl := hq.unique hq'
    cases hrest with
    | cons step _ => exact step.idle_nil (hq.ok hok)

end Steps

/-- The idle thread starts, and the initial thread comes back from `thread_start` and creates a
thread. -/
def creation : List (SchedAction Unit) :=
  [.kernel .tick, .kernel .setIdle, .kernel .idleUp, .kernel .tick, .kernel (.down ()), .kernel (.create 2)]

/-- The state after that. -/
def created : Kernel Unit :=
  match schedSystem.replay boot creation with
  | .next k => k
  | _ => boot

/-- The initial thread makes the new thread ready and yields to it: the new thread stood before
it. -/
theorem scheduler_fifo_yield : ∃ (k' : Kernel Unit) (q : List ℕ), Runs created [.append 2, .append 0, .dispatch 2] k' ∧
    Fifo.Run 1 created.readyList [.append 2] q ∧
    (dispatched [.dispatch 2] <+: q ++ [0] ∨ q ++ [0] <+: dispatched [.dispatch 2]) := by
  have hreach : schedSystem.Reach created := 
    .replay (.init boot_init) (show schedSystem.replay boot creation = .next created from rfl)
  have hstart : Runs created [.append 2] _ := .step (a := .kernel .start) (.nil created) rfl
  have hyield : Runs created [.append 2, .append 0, .dispatch 2] _ := .step (a := .kernel .yield) hstart rfl
  obtain ⟨q, hq, -, hcomp⟩ := (scheduler_fifo hreach rfl hyield).2.1 [.append 2] 0 [.dispatch 2] rfl
  exact ⟨_, q, hyield, hq, hcomp⟩

end Pintos.Threads.Kernel
