import Pintos.Threads.Thread

/-!
# The lists of the kernel

The states of the threads and the lists of `Pintos.Threads.Thread` agree in every run: a
thread is ready if and only if it is on the run queue (the idle thread apart), a thread on
the queue of a semaphore or on `waiting_list` is blocked and stands there once, and a
dying thread stands nowhere.

`Placed` says this of one thread, and `Inv` of all of them. A step changes one or two
threads; for the others `Placed.same` carries over what was known. `schedule` starts from
a state in which no thread runs (`Inv.leave`, `Inv.leave_ready`) and always finds a thread
(`Inv.schedule`): before `idle_thread` is set, the thread that is going to set it is on
the run queue or runs.

## What is proved

`Kernel.Inv.step`: every step keeps the invariant and meets its assertions, and what it does
to sleeping threads is one of the four kinds of `SleepStep`. `Kernel.lists_consistent` is
the invariant in the words of the lists, for every run.
-/

namespace Pintos.Threads.Kernel

open Function

variable {S : Type}

/-! ### The invariant -/

/-- The state of a thread and the lists agree, when the running thread is `r`: none
between the change of the running thread's state and the end of `schedule`. -/
structure Placed (k : Kernel S) (r : Option ℕ) (t : ℕ) : Prop where
  running : k.status t = some .running ↔ r = some t
  ready : t ∈ k.readyList ↔ k.status t = some .ready ∧ k.idleThread ≠ some t
  waiters : ∀ sema, t ∈ (k.sema sema).waiters → k.status t = some .blocked ∧ k.pc t = .inDown sema
  sleeper : t ∈ k.waitingList ↔ k.pc t = .asleep
  asleep : k.pc t = .asleep → k.status t = some .blocked
  idle : k.idleThread = some t →
    (k.pc t = .idleUp ∨ k.pc t = .idleLoop) ∧ k.status t ≠ none ∧ k.status t ≠ some .dying
  start : k.pc t = .idleStart → k.idleThread = none ∧ (k.status t = some .ready ∨ k.status t = some .running)
  child : ∀ u, k.child u = some t → k.status t = some .blocked ∧ k.pc t = .unborn
  gone : k.status t = none ∨ k.status t = some .dying → k.pc t = .run

/-- What holds of every state when the running thread is `r`. -/
structure Inv (k : Kernel S) (r : Option ℕ) : Prop where
  placed : ∀ t, k.Placed r t
  readyNodup : k.readyList.Nodup
  waitersNodup : ∀ sema, (k.sema sema).waiters.Nodup
  sleepersNodup : k.waitingList.Nodup
  /-- Before `idle_thread` is set, one thread is going to set it. -/
  boot : k.idleThread = none → ∃ t, k.pc t = .idleStart
  oneStart : ∀ t u, k.pc t = .idleStart → k.pc u = .idleStart → t = u
  oneParent : ∀ t u c, k.child t = some c → k.child u = some c → t = u

/-- Nothing that concerns thread `t` changes. -/
structure SameFor (k k' : Kernel S) (t : ℕ) : Prop where
  status : k'.status t = k.status t
  pc : k'.pc t = k.pc t
  ready : t ∈ k'.readyList ↔ t ∈ k.readyList
  waiters : ∀ sema, t ∈ (k'.sema sema).waiters → t ∈ (k.sema sema).waiters
  sleeper : t ∈ k'.waitingList ↔ t ∈ k.waitingList
  idle : k'.idleThread = k.idleThread
  child : ∀ u, k'.child u = some t → k.child u = some t

section Frame

variable {k k' : Kernel S} {r r' : Option ℕ} {t u : ℕ}

theorem Placed.same (h : k.Placed r t) (hs : SameFor k k' t) (hr : r' = some t ↔ r = some t) : k'.Placed r' t where
  running := by rw [hs.status, h.running, hr]
  ready := by rw [hs.ready, hs.status, hs.idle, h.ready]
  waiters sema ht := by
    rw [hs.status, hs.pc]
    exact h.waiters sema (hs.waiters sema ht)
  sleeper := by rw [hs.sleeper, hs.pc, h.sleeper]
  asleep := by
    rw [hs.status, hs.pc]
    exact h.asleep
  idle := by
    rw [hs.status, hs.pc, hs.idle]
    exact h.idle
  start := by
    rw [hs.status, hs.pc, hs.idle]
    exact h.start
  child u hu := by
    rw [hs.status, hs.pc]
    exact h.child u (hs.child u hu)
  gone := by
    rw [hs.status, hs.pc]
    exact h.gone

theorem Inv.history (h : Inv k r) (wakeTick : ℕ → ℤ) (ticks : ℤ) (threadTicks : ℕ) (log : List SleepEvent) :
    Inv { k with wakeTick := wakeTick, ticks := ticks, threadTicks := threadTicks, log := log } r :=
  { h with placed := fun t => { h.placed t with } }

/-- A thread on no list: its state and its point allow none. -/
structure Loose (k : Kernel S) (t : ℕ) : Prop where
  ready : t ∉ k.readyList
  waiters : ∀ sema, t ∉ (k.sema sema).waiters
  sleeper : t ∉ k.waitingList
  child : ∀ u, k.child u ≠ some t

theorem Placed.loose (h : k.Placed r t) (hr : k.status t ≠ some .ready) (hb : k.status t ≠ some .blocked) :
    k.Loose t where
  ready ht := hr (h.ready.mp ht).1
  waiters sema ht := hb (h.waiters sema ht).1
  sleeper ht := hb (h.asleep (h.sleeper.mp ht))
  child u hu := hb (h.child u hu).1

theorem Placed.not_idle (h : k.Placed r t) (hup : k.pc t ≠ .idleUp) (hloop : k.pc t ≠ .idleLoop) : k.idleThread ≠ some t :=
  fun hi => (h.idle hi).1.elim hup hloop

theorem Placed.loose_running (h : k.Placed (some t) t) : k.Loose t := by
  have hrun := h.running.mpr rfl
  refine h.loose ?_ ?_ <;> rw [hrun] <;> exact nofun

end Frame

/-! ### Changing the state of a thread -/

section Status

variable {k : Kernel S} {r : Option ℕ} {t u : ℕ}

/-- **The state of thread `t` changes**, and the run queue with it; the thread waits nowhere. -/
theorem Inv.restate (h : Inv k r) (hwaits : ∀ sema, t ∉ (k.sema sema).waiters) (hsleeper : t ∉ k.waitingList)
    (hchild : ∀ u, k.child u ≠ some t) {r' : Option ℕ} {status : Option ThreadStatus}
    {ready : List ℕ} {current threadTicks : ℕ}
    (hnd : ready.Nodup) (hothers : ∀ u, u ≠ t → (u ∈ ready ↔ u ∈ k.readyList) ∧ (r' = some u ↔ r = some u))
    (hrunning : status = some .running ↔ r' = some t) (hready : t ∈ ready ↔ status = some .ready ∧ k.idleThread ≠ some t)
    (hidle : k.idleThread = some t → status ≠ none ∧ status ≠ some .dying)
    (hstart : k.pc t = .idleStart → status = some .ready ∨ status = some .running)
    (hgone : status = none ∨ status = some .dying → k.pc t = .run) :
    Inv { k with
      status := update k.status t status, readyList := ready, current := current, threadTicks := threadTicks } r' := by
  refine { h with placed := fun u => ?_, readyNodup := hnd }
  have hp := h.placed u
  obtain rfl | hu := eq_or_ne u t
  · refine ⟨?_, ?_, fun sema hw => absurd hw (hwaits sema), hp.sleeper, fun ha => absurd (hp.sleeper.mpr ha) hsleeper,
      fun hi => ⟨(hp.idle hi).1, ?_⟩, fun he => ⟨(hp.start he).1, ?_⟩, fun v hv => absurd hv (hchild v), ?_⟩
    all_goals dsimp only; rw [update_self]
    exacts [hrunning, hready, hidle hi, hstart he, hgone]
  · obtain ⟨hmem, hr⟩ := hothers u hu
    exact hp.same ⟨update_of_ne hu .., rfl, hmem, fun _ => id, Iff.rfl, rfl, fun _ => id⟩ hr

theorem Inv.leave (h : Inv k (some t)) (hpc : k.pc t ≠ .idleStart) {status : ThreadStatus}
    (hs : status = .blocked ∨ status = .dying ∧ k.idleThread ≠ some t ∧ k.pc t = .run) :
    Inv (k.setStatus t status) none := by
  have hl := (h.placed t).loose_running
  have hst : status ≠ .running ∧ status ≠ .ready := by
    rcases hs with rfl | ⟨rfl, -⟩ <;> exact ⟨nofun, nofun⟩
  refine h.restate hl.waiters hl.sleeper hl.child h.readyNodup (fun u hu => ⟨Iff.rfl, by simp [hu.symm]⟩)
    (by simp [hst.1]) (by simp [hst.2, hl.ready]) (fun hi => ?_) (fun he => absurd he hpc) fun hg => ?_
  · rcases hs with rfl | ⟨-, hno, -⟩
    · exact ⟨nofun, nofun⟩
    · exact absurd hi hno
  · rcases hs with rfl | ⟨-, -, hrun⟩
    · simp at hg
    · exact hrun

theorem Inv.leave_ready (h : Inv k (some t)) :
    Inv ((if some t ≠ k.idleThread then { k with readyList := k.readyList ++ [t] } else k).setStatus t .ready)
      none := by
  have hl := (h.placed t).loose_running
  by_cases hi : some t = k.idleThread
  · rw [if_neg (not_not.mpr hi)]
    exact h.restate hl.waiters hl.sleeper hl.child h.readyNodup (fun u hu => ⟨Iff.rfl, by simp [hu.symm]⟩)
      (by simp) (by simp [hl.ready, hi]) (by simp) (fun _ => .inl rfl) (by simp)
  · rw [if_pos hi]
    exact h.restate hl.waiters hl.sleeper hl.child (List.concat_eq_append ▸ List.Nodup.concat hl.ready h.readyNodup)
      (fun u hu => ⟨by simp [hu], by simp [Ne.symm hu]⟩) (by simp) (by simp [Ne.symm hi]) (by simp)
        (fun _ => .inl rfl) (by simp)

theorem Inv.unblock (h : Inv k r) (hl : k.Loose t) (hb : k.status t = some .blocked) (hi : k.idleThread ≠ some t) :
    ∃ k', k.threadUnblock t = .ok k' ∧ k' = { k with readyList := k.readyList ++ [t] }.setStatus t .ready ∧ Inv k' r := by
  have hr : r ≠ some t := fun he => by
    rw [(h.placed t).running.mpr he] at hb
    cases hb
  refine ⟨_, by simp [threadUnblock, hb], rfl, ?_⟩
  exact h.restate hl.waiters hl.sleeper hl.child (List.concat_eq_append ▸ List.Nodup.concat hl.ready h.readyNodup)
    (fun u hu => ⟨by simp [hu], Iff.rfl⟩) (by simp [hr]) (by simp [hi]) (by simp) (fun _ => .inl rfl) (by simp)

end Status

/-! ### Switching threads -/

/-- No thread goes to another point, and the clock stands. -/
structure Unmoved (k k' : Kernel S) : Prop where
  wakeTick : k'.wakeTick = k.wakeTick
  ticks : k'.ticks = k.ticks
  pc : k'.pc = k.pc
  log : k'.log = k.log

/-- What a switch leaves as it is; a ready thread may have got the processor. -/
structure Switched (k k' : Kernel S) : Prop extends Unmoved k k' where
  ready : ∀ t, k.status t = some .ready → k'.status t = some .ready ∨ k'.status t = some .running

section Switch

variable {k : Kernel S} {r : Option ℕ} {t : ℕ}

theorem Inv.free (h : Inv k r) (hd : k.status t = some .dying) :
    Inv { k with status := update k.status t none } r := by
  have hp := h.placed t
  have hl := hp.loose (by simp [hd]) (by simp [hd])
  have hr : r ≠ some t := fun he => by
    rw [hp.running.mpr he] at hd
    cases hd
  refine h.restate hl.waiters hl.sleeper hl.child h.readyNodup (fun _ _ => ⟨Iff.rfl, Iff.rfl⟩) (by simp [hr])
    (by simp [hl.ready]) (fun hi => absurd hd (hp.idle hi).2.2) (fun he => ?_) fun _ => hp.gone (.inr hd)
  have := (hp.start he).2
  simp [hd] at this

/-- The next thread gets the processor: it was ready, at the head of the run queue, or it is
the idle thread and the run queue is empty. -/
theorem Inv.dispatch (h : Inv k none) {next : ℕ} {rest : List ℕ}
    (hnext : k.readyList = next :: rest ∨ k.readyList = [] ∧ rest = [] ∧ k.idleThread = some next) :
    Inv ({ k with readyList := rest, current := next, threadTicks := 0 }.setStatus next .running) (some next) := by
  have hp := h.placed next
  -- the next thread waits nowhere, and the others find the run queue as it was for them
  have hnot : k.status next ≠ some .blocked ∨ k.idleThread = some next := by
    rcases hnext with hq | ⟨-, -, hi⟩
    · refine .inl ?_
      rw [(hp.ready.mp (by simp [hq])).1]
      exact nofun
    · exact .inr hi
  have hpc : k.status next = some .blocked → k.pc next = .idleUp ∨ k.pc next = .idleLoop := fun hb =>
    (hp.idle (hnot.resolve_left (not_not.mpr hb))).1
  have hwaits : ∀ sema, next ∉ (k.sema sema).waiters := fun sema hw => by
    obtain ⟨hb, hd⟩ := hp.waiters sema hw
    rcases hpc hb with hi | hi <;> cases hd.symm.trans hi
  have hsleeper : next ∉ k.waitingList := fun hw => by
    have ha := hp.sleeper.mp hw
    rcases hpc (hp.asleep ha) with hi | hi <;> cases ha.symm.trans hi
  have hchild : ∀ u, k.child u ≠ some next := fun u hu => by
    obtain ⟨hb, hc⟩ := hp.child u hu
    rcases hpc hb with hi | hi <;> cases hc.symm.trans hi
  have hrest : rest.Nodup ∧ next ∉ rest ∧ ∀ u, u ≠ next → (u ∈ rest ↔ u ∈ k.readyList) := by
    rcases hnext with hq | ⟨hq, rfl, -⟩
    · have hnd := h.readyNodup
      rw [hq] at hnd
      obtain ⟨hnotin, hnd⟩ := List.nodup_cons.mp hnd
      exact ⟨hnd, hnotin, fun u hu => by simp [hq, hu]⟩
    · exact ⟨List.nodup_nil, List.not_mem_nil, fun u _ => by simp [hq]⟩
  exact h.restate hwaits hsleeper hchild hrest.1 (fun u hu => ⟨hrest.2.2 u hu, by simp [hu.symm]⟩) (by simp)
    (by simp [hrest.2.1]) (by simp) (fun _ => .inr rfl) (by simp)

theorem Inv.next_exists (h : Inv k none) : ∃ next rest,
    k.nextThreadToRun = (some next, { k with readyList := rest }) ∧ k.status next ≠ none ∧
    (k.readyList = next :: rest ∨ k.readyList = [] ∧ rest = [] ∧ k.idleThread = some next) := by
  cases hq : k.readyList with
  | cons next rest =>
    have hready := ((h.placed next).ready.mp (by simp [hq])).1
    exact ⟨next, rest, by simp [nextThreadToRun, hq], by simp [hready], .inl rfl⟩
  | nil =>
    cases hi : k.idleThread with
    | none =>
      -- the thread that is going to be the idle thread is on the run queue
      obtain ⟨t, ht⟩ := h.boot hi
      have hp := h.placed t
      rcases (hp.start ht).2 with hs | hs
      · have := hp.ready.mpr ⟨hs, by simp [hi]⟩
        rw [hq] at this
        cases this
      · cases hp.running.mp hs
    | some next =>
      refine ⟨next, [], ?_, ((h.placed next).idle hi).2.1, .inr ⟨rfl, rfl, rfl⟩⟩
      have hk : ({ k with readyList := [], idleThread := some next } : Kernel S) = k := by rw [← hq, ← hi]
      rw [hk]
      unfold nextThreadToRun
      split
      · rw [hi]
      · rename_i hcons
        rw [hq] at hcons
        cases hcons

/-- **`schedule` finds a thread and meets its assertions.** -/
theorem Inv.schedule (h : Inv k none) :
    ∃ k', k.schedule = .ok k' ∧ Inv k' (some k'.current) ∧ Switched k k' := by
  obtain ⟨next, rest, hnext, hstatus, hq⟩ := h.next_exists
  have hcur : k.status k.current ≠ some .running := fun hr => by
    cases (h.placed k.current).running.mp hr
  have hdisp := h.dispatch hq
  have hsched : k.schedule = scheduleTail { k with readyList := rest, current := next }
      (if k.current ≠ next then some k.current else none) := by
    rw [Kernel.schedule, hnext]
    simp only [if_neg hcur, if_neg hstatus]
  have hready : ∀ t, k.status t = some .ready →
      (update k.status next (some ThreadStatus.running)) t = some .ready ∨
      (update k.status next (some ThreadStatus.running)) t = some .running := fun t ht => by
    obtain rfl | hu := eq_or_ne t next
    · exact .inr (update_self ..)
    · exact .inl ((update_of_ne hu ..).trans ht)
  rw [hsched]
  by_cases hsame : k.current = next
  · rw [if_neg (not_not.mpr hsame)]
    exact ⟨_, rfl, hdisp, ⟨rfl, rfl, rfl, rfl⟩, hready⟩
  · rw [if_pos hsame]
    unfold scheduleTail
    simp only
    split
    · rename_i hdying
      rw [if_neg (by exact hsame)]
      refine ⟨_, rfl, hdisp.free hdying.1, ⟨rfl, rfl, rfl, rfl⟩, fun t ht => ?_⟩
      have hne : t ≠ k.current := by
        rintro rfl
        have hd : update k.status next (some ThreadStatus.running) k.current = some .dying := hdying.1
        rw [update_of_ne hsame, ht] at hd
        cases hd
      have hold : update (update k.status next (some ThreadStatus.running)) k.current none t =
          update k.status next (some ThreadStatus.running) t := update_of_ne hne ..
      exact (hready t ht).imp hold.trans hold.trans
    · exact ⟨_, rfl, hdisp, ⟨rfl, rfl, rfl, rfl⟩, hready⟩

end Switch

/-! ### Moving a thread, and the lists -/

section Lists

variable {k : Kernel S} {r : Option ℕ} {t : ℕ}

/-- Thread `t` goes to another point, and on or off `waiting_list`; the others see no difference. -/
theorem Inv.repoint (h : Inv k r) {pc : KernelPc S} {waitingList : List ℕ} (hold : k.pc t ≠ .idleStart)
    (hpc : pc ≠ .idleStart) (hnd : waitingList.Nodup) (hmem : ∀ u, u ≠ t → (u ∈ waitingList ↔ u ∈ k.waitingList))
    (ht : Placed ({ k with waitingList := waitingList }.move t pc) r t) :
    Inv ({ k with waitingList := waitingList }.move t pc) r := by
  have hstart : ∀ {u}, ({ k with waitingList := waitingList }.move t pc).pc u = .idleStart → k.pc u = .idleStart :=
    fun hu => ((update_cases hu).resolve_left fun ht => hpc ht.2).2
  refine ⟨fun u => ?_, h.readyNodup, h.waitersNodup, hnd, fun hi => ?_,
    fun u v hu hv => h.oneStart u v (hstart hu) (hstart hv), h.oneParent⟩
  · by_cases hu : u = t
    · rwa [hu]
    · exact (h.placed u).same ⟨rfl, update_of_ne hu .., Iff.rfl, fun _ => id, hmem u hu, rfl, fun _ => id⟩
        Iff.rfl
  · obtain ⟨u, hu⟩ := h.boot hi
    have hut : u ≠ t := fun he => hold (he ▸ hu)
    exact ⟨u, by simp [hut, hu]⟩

theorem Inv.move (h : Inv k r) (hl : k.Loose t) {pc : KernelPc S} (hold : k.pc t ≠ .idleStart) (hpc : pc ≠ .asleep)
    (hstart : pc ≠ .idleStart) (hidle : k.idleThread = some t → pc = .idleUp ∨ pc = .idleLoop)
    (hgone : k.status t = none ∨ k.status t = some .dying → pc = .run) : Inv (k.move t pc) r := by
  have hp := h.placed t
  exact h.repoint hold hstart h.sleepersNodup (fun _ _ => Iff.rfl)
    ⟨hp.running, hp.ready, fun sema hw => absurd hw (hl.waiters sema), by simp [hl.sleeper, hpc],
      fun ha => absurd ha (by simp [hpc]), fun hi => ⟨by simpa using hidle hi, (hp.idle hi).2⟩,
      fun he => absurd he (by simp [hstart]), fun v hv => absurd hv (hl.child v), by simpa using hgone⟩

theorem Inv.fallAsleep (h : Inv k r) (hl : k.Loose t) (hb : k.status t = some .blocked) (hpc : k.pc t ≠ .idleStart)
    (hi : k.idleThread ≠ some t) : Inv ({ k with waitingList := k.waitingList ++ [t] }.move t .asleep) r := by
  have hp := h.placed t
  refine h.repoint hpc nofun ?_ (fun u hu => by simp [hu])
    ⟨hp.running, hp.ready, fun sema hw => absurd hw (hl.waiters sema), by simp, fun _ => hb,
      fun he => absurd he hi, fun he => absurd he (by simp), fun v hv => absurd hv (hl.child v),
      fun hg => by simp [hb] at hg⟩
  exact List.concat_eq_append ▸ List.Nodup.concat hl.sleeper h.sleepersNodup

theorem Inv.awake (h : Inv k r) (ht : t ∈ k.waitingList) :
    Inv ({ k with waitingList := k.waitingList.erase t }.move t .run) r ∧
    Loose ({ k with waitingList := k.waitingList.erase t }.move t .run) t ∧
    k.status t = some .blocked ∧ k.idleThread ≠ some t := by
  have hp := h.placed t
  have hpc := hp.sleeper.mp ht
  have hb := hp.asleep hpc
  have hi := hp.not_idle (by simp [hpc]) (by simp [hpc])
  have hl : Loose ({ k with waitingList := k.waitingList.erase t }.move t .run) t :=
    ⟨fun hr => (by cases hb.symm.trans (hp.ready.mp hr).1), fun sema hw => (by cases hpc.symm.trans (hp.waiters sema hw).2),
      h.sleepersNodup.not_mem_erase, fun u hu => by cases hpc.symm.trans (hp.child u hu).2⟩
  refine ⟨?_, hl, hb, hi⟩
  exact h.repoint (by simp [hpc]) nofun (h.sleepersNodup.erase t) (fun u hu => List.mem_erase_of_ne hu)
    ⟨hp.running, hp.ready, fun sema hw => absurd hw (hl.waiters sema), iff_of_false hl.sleeper (by simp),
      fun ha => absurd ha (by simp), fun he => absurd he hi, fun he => absurd he (by simp),
      fun v hv => absurd hv (hl.child v), fun _ => by simp⟩

variable {value : Semaphore ℕ} {sema : S}

theorem Inv.setSema [DecidableEq S] (h : Inv k r) (hnd : value.waiters.Nodup)
    (hw : ∀ t ∈ value.waiters, k.status t = some .blocked ∧ k.pc t = .inDown sema) :
    Inv (k.setSema sema value) r := by
  refine { h with placed := fun u => { h.placed u with waiters := ?_ }, waitersNodup := ?_ }
  · exact (forall_update_iff k.sema fun sema v => u ∈ v.waiters → k.status u = some .blocked ∧ k.pc u = .inDown sema).mpr
      ⟨hw u, fun sema' _ => (h.placed u).waiters sema'⟩
  · exact (forall_update_iff k.sema fun _ v => v.waiters.Nodup).mpr ⟨hnd, fun sema' _ => h.waitersNodup sema'⟩

theorem Inv.create (h : Inv k r) {page : ℕ} (hfree : k.status page = none) (ht : k.child t = none) :
    Inv ({ k with
      wakeTick := update k.wakeTick page 0
      child := update k.child t (some page) }.setStatus page .blocked |>.move page .unborn) r := by
  have hp := h.placed page
  have hl := hp.loose (by simp [hfree]) (by simp [hfree])
  have hpc := hp.gone (.inl hfree)
  have hi : k.idleThread ≠ some page := fun hi => (hp.idle hi).2.1 hfree
  have hr : r ≠ some page := fun he => by
    rw [hp.running.mpr he] at hfree
    cases hfree
  have hchild : ∀ {u c}, update k.child t (some page) u = some c →
      c = page ∧ u = t ∨ c ≠ page ∧ u ≠ t ∧ k.child u = some c := fun {u c} hu => by
    obtain ⟨rfl, ⟨⟩⟩ | ⟨hut, hu⟩ := update_cases hu
    exacts [.inl ⟨rfl, rfl⟩, .inr ⟨fun he => hl.child u (he ▸ hu), hut, hu⟩]
  have hstart : ∀ {u}, update k.pc page .unborn u = .idleStart → u ≠ page ∧ k.pc u = .idleStart :=
    fun hu => (update_cases hu).resolve_left (by simp)
  refine ⟨fun u => ?_, h.readyNodup, h.waitersNodup, h.sleepersNodup, fun hn => ?_,
    fun u v hu hv => h.oneStart u v (hstart hu).2 (hstart hv).2, fun u v c hu hv => ?_⟩
  · obtain rfl | hu := eq_or_ne u page
    · exact ⟨by simp [hr], by simp [hl.ready], fun sema hw => absurd hw (hl.waiters sema), by simp [hl.sleeper],
        fun _ => by simp, fun he => absurd he hi, fun he => absurd he (by simp), fun v _ => by simp,
        fun hg => by simp at hg⟩
    · refine (h.placed u).same ⟨update_of_ne hu .., update_of_ne hu .., Iff.rfl, fun _ => id, Iff.rfl,
        rfl, fun v hv => ?_⟩ Iff.rfl
      rcases hchild hv with ⟨he, -⟩ | ⟨-, -, hc⟩
      · exact absurd he hu
      · exact hc
  · obtain ⟨u, hu⟩ := h.boot hn
    have hut : u ≠ page := fun he => by
      rw [he] at hu
      cases hpc.symm.trans hu
    exact ⟨u, by simp [hut, hu]⟩
  · rcases hchild hu with ⟨hc, hut⟩ | ⟨hc, -, hu⟩ <;> rcases hchild hv with ⟨hc', hvt⟩ | ⟨hc', -, hv⟩
    · exact hut.trans hvt.symm
    · exact absurd hc hc'
    · exact absurd hc' hc
    · exact h.oneParent u v c hu hv

/-- The creator is done with its child, which stands on no list. -/
theorem Inv.born (h : Inv k r) {page : ℕ} (ht : k.child t = some page) :
    Inv ({ k with child := update k.child t none }.move page .run) r ∧
    Loose ({ k with child := update k.child t none }.move page .run) page ∧
    k.status page = some .blocked ∧ k.idleThread ≠ some page := by
  have hp := h.placed page
  obtain ⟨hb, hpc⟩ := hp.child t ht
  have hchild : ∀ {u c}, update k.child t none u = some c → u ≠ t ∧ k.child u = some c := fun hu =>
    (update_cases hu).resolve_left (by simp)
  have hi := hp.not_idle (by simp [hpc]) (by simp [hpc])
  have hk : Inv { k with child := update k.child t none } r :=
    { h with
      placed := fun u => { h.placed u with child := fun v hv => (h.placed u).child v (hchild hv).2 }
      oneParent := fun u v c hu hv => h.oneParent u v c (hchild hu).2 (hchild hv).2 }
  have hl : Loose { k with child := update k.child t none } page :=
    ⟨fun hr => (by cases hb.symm.trans (hp.ready.mp hr).1), fun sema hw => (by cases hpc.symm.trans (hp.waiters sema hw).2),
      fun hw => (by cases hpc.symm.trans (hp.sleeper.mp hw)),
      fun u hu => (hchild hu).1 (h.oneParent u t page (hchild hu).2 ht)⟩
  refine ⟨?_, ⟨hl.ready, hl.waiters, hl.sleeper, hl.child⟩, hb, hi⟩
  exact hk.move hl (by rw [show k.pc page = _ from hpc]; exact nofun) nofun nofun (fun he => absurd he hi) fun _ => rfl

theorem Inv.setIdle (h : Inv k (some t)) (ht : k.pc t = .idleStart) :
    Inv ({ k with idleThread := some t }.move t .idleUp) (some t) := by
  have hp := h.placed t
  have hl := hp.loose_running
  have hn := (hp.start ht).1
  have hstart : ∀ {u}, update k.pc t .idleUp u ≠ .idleStart := fun {u} hu => by
    obtain ⟨-, ⟨⟩⟩ | ⟨hut, hu⟩ := update_cases hu
    exact hut (h.oneStart u t hu ht)
  refine ⟨fun u => ?_, h.readyNodup, h.waitersNodup, h.sleepersNodup, fun he => (by cases he),
    fun u _ hu => absurd hu hstart, h.oneParent⟩
  have hrun : k.status t = some .running := hp.running.mpr rfl
  obtain rfl | hu := eq_or_ne u t
  · exact ⟨hp.running, by simp [hl.ready], fun sema hw => absurd hw (hl.waiters sema), by simp [hl.sleeper],
      fun ha => absurd ha (by simp), fun _ => ⟨by simp, by simp [hrun]⟩, fun he => absurd he hstart,
      fun v hv => absurd hv (hl.child v), fun hg => by simp [hrun] at hg⟩
  · have hq := h.placed u
    have hpc : ({ k with idleThread := some t }.move t .idleUp).pc u = k.pc u := update_of_ne hu ..
    refine ⟨hq.running, ?_, fun sema hw => by rw [hpc]; exact hq.waiters sema hw, by rw [hpc]; exact hq.sleeper,
      by rw [hpc]; exact hq.asleep, fun he => absurd (Option.some.inj he).symm hu, fun he => absurd he hstart,
      by rw [hpc]; exact hq.child, by rw [hpc]; exact hq.gone⟩
    have hready := hq.ready
    simp only [hn, ne_eq, reduceCtorEq, not_false_eq_true, and_true] at hready
    simp [hready, hu.symm]

end Lists

/-! ### The functions of the source -/

section Functions

variable {k : Kernel S}

theorem Inv.status_current (h : Inv k (some k.current)) : k.status k.current = some .running :=
  (h.placed k.current).running.mpr rfl

theorem threadCurrent_eq (h : k.status k.current = some .running) : k.threadCurrent = .ok k.current := by
  simp [threadCurrent, h]

theorem threadBlock_ok (hrun : k.status k.current = some .running)
    (h : Inv (k.setStatus k.current .blocked) none) :
    ∃ k', k.threadBlock = .ok k' ∧ Inv k' (some k'.current) ∧ Switched (k.setStatus k.current .blocked) k' := by
  rw [threadBlock, threadCurrent_eq hrun]
  exact h.schedule

theorem Inv.threadYield (h : Inv k (some k.current)) :
    ∃ k', k.threadYield = .ok k' ∧ Inv k' (some k'.current) ∧ Switched k k' := by
  rw [Kernel.threadYield, threadCurrent_eq h.status_current]
  obtain ⟨k', hk, hinv, hsw⟩ := h.leave_ready.schedule
  refine ⟨k', hk, hinv, ?_⟩
  have hready : ∀ t, k.status t = some .ready → k'.status t = some .ready ∨ k'.status t = some .running := fun t ht => by
    apply hsw.ready
    have hne : t ≠ k.current := fun he => by
      rw [he, h.status_current] at ht
      cases ht
    split <;> simp [hne, ht]
  refine ⟨⟨hsw.wakeTick.trans ?_, hsw.ticks.trans ?_, hsw.pc.trans ?_, hsw.log.trans ?_⟩, hready⟩ <;> split <;> rfl

theorem Inv.threadExit (h : Inv k (some k.current)) (hpc : k.pc k.current = .run)
    (hi : k.idleThread ≠ some k.current) :
    ∃ k', k.threadExit = .ok k' ∧ Inv k' (some k'.current) ∧ Switched (k.setStatus k.current .dying) k' := by
  rw [Kernel.threadExit, threadCurrent_eq h.status_current]
  exact (h.leave (by simp [hpc]) (.inr ⟨rfl, hi, hpc⟩)).schedule

theorem Inv.threadAddToWaiting (h : Inv k (some k.current)) {wakeTick : ℤ} (hpc : k.pc k.current = .called wakeTick) :
    ∃ k', (({ k with log := k.log ++ [SleepEvent.joined k.current] }.move k.current .asleep).threadAddToWaiting
        k.current wakeTick) = .ok k' ∧ Inv k' (some k'.current) ∧
      k'.pc = update k.pc k.current .asleep ∧ k'.wakeTick = update k.wakeTick k.current wakeTick ∧
      k'.ticks = k.ticks ∧ k'.log = k.log ++ [SleepEvent.joined k.current] := by
  have hp := h.placed k.current
  have hl := hp.loose_running
  have hblocked : Inv (k.setStatus k.current .blocked) none := h.leave (by simp [hpc]) (.inl rfl)
  have hasleep := hblocked.fallAsleep (t := k.current) ⟨hl.ready, hl.waiters, hl.sleeper, hl.child⟩ (by simp)
    (by rw [show (k.setStatus k.current .blocked).pc k.current = _ from hpc]; exact nofun)
    (hp.not_idle (by simp [hpc]) (by simp [hpc]))
  have hfinal : Inv ((({ k with log := k.log ++ [SleepEvent.joined k.current] }.move k.current .asleep).joinWaiting
      k.current wakeTick).setStatus k.current .blocked) none :=
    hasleep.history (update k.wakeTick k.current wakeTick) _ _ (k.log ++ [SleepEvent.joined k.current])
  obtain ⟨k', hk, hinv, hsw⟩ := threadBlock_ok
    (k := ({ k with log := k.log ++ [SleepEvent.joined k.current] }.move k.current .asleep).joinWaiting k.current wakeTick)
    h.status_current hfinal
  exact ⟨k', hk, hinv, hsw.pc, hsw.wakeTick, hsw.ticks, hsw.log⟩

/-- What the walk of `thread_tick` does: it wakes the threads of a list. -/
structure Woken (k k' : Kernel S) (woken : List ℕ) : Prop where
  current : k'.current = k.current
  wakeTick : k'.wakeTick = k.wakeTick
  ticks : k'.ticks = k.ticks
  log : k'.log = k.log
  pc : ∀ t, k'.pc t = if t ∈ woken then .run else k.pc t
  status : ∀ t, k'.status t = if t ∈ woken then some .ready else k.status t

/-- **The walk over `waiting_list`** wakes exactly the threads that are due, each once. -/
theorem Inv.wakeThreads (h : Inv k r) {l : List ℕ} (hl : ∀ t ∈ l, t ∈ k.waitingList) (hnd : l.Nodup) :
    ∃ k', k.wakeThreads l = .ok (k', l.filter fun t => k.wakeTick t ≤ k.ticks) ∧ Inv k' r ∧
      Woken k k' (l.filter fun t => k.wakeTick t ≤ k.ticks) := by
  induction l generalizing k with
  | nil => exact ⟨k, rfl, h, rfl, rfl, rfl, rfl, fun _ => rfl, fun _ => rfl⟩
  | cons t ts ih =>
    obtain ⟨hts, hnd⟩ := List.nodup_cons.mp hnd
    by_cases hdue : k.wakeTick t ≤ k.ticks
    · obtain ⟨hinv, hloose, hb, hi⟩ := h.awake (hl t (by simp))
      obtain ⟨k₁, -, hk₁, hinv₁⟩ := hinv.unblock hloose hb hi
      -- taking the thread off the list first leads to the same state
      have hstep : k.threadUnblock t = .ok ({ k with readyList := k.readyList ++ [t] }.setStatus t .ready) := by
        simp [threadUnblock, hb]
      have hmem : ∀ u ∈ ts, u ∈ k₁.waitingList := fun u hu => by
        have hut : u ≠ t := fun he => hts (he ▸ hu)
        rw [hk₁]
        exact (List.mem_erase_of_ne hut).mpr (hl u (by simp [hu]))
      obtain ⟨k', hk', hinv', hw⟩ := ih hinv₁ hmem hnd
      subst hk₁
      refine ⟨k', ?_, hinv', ?_⟩
      · rw [Kernel.wakeThreads, if_pos hdue, hstep]
        rw [List.filter_cons_of_pos (by simpa using hdue)]
        exact congrArg (fun x => x >>= fun p => pure (p.1, t :: p.2)) hk'
      · rw [List.filter_cons_of_pos (by simpa using hdue)]
        refine ⟨hw.current, hw.wakeTick, hw.ticks, hw.log, fun u => ?_, fun u => ?_⟩
        · rw [hw.pc u]
          obtain rfl | hut := eq_or_ne u t
          · simp
          · simp [hut]
        · rw [hw.status u]
          obtain rfl | hut := eq_or_ne u t
          · simp
          · simp [hut]
    · obtain ⟨k', hk', hinv', hw⟩ := ih h (fun u hu => hl u (by simp [hu])) hnd
      rw [List.filter_cons_of_neg (by simpa using hdue)]
      refine ⟨k', ?_, hinv', hw⟩
      rw [Kernel.wakeThreads, if_neg hdue]
      exact hk'

section

variable (h : Inv k (some k.current)) {woken : List ℕ}
  (hwoken : woken = k.waitingList.filter fun t => k.wakeTick t ≤ k.ticks + 1)
include h hwoken

theorem Inv.threadTick :
    ∃ k', Kernel.threadTick { k with ticks := k.ticks + 1 } = .ok (k', true) ∧ Inv k' (some k'.current) ∧
      k'.log = k.log ++ [SleepEvent.interrupt woken] ∧ k'.ticks = k.ticks + 1 ∧ k'.wakeTick = k.wakeTick ∧
      (∀ t, k'.pc t = if t ∈ woken then .run else k.pc t) ∧ ∀ t ∈ woken, k'.status t = some .ready := by
  have htick := h.history k.wakeTick (k.ticks + 1) (k.threadTicks + 1) k.log
  obtain ⟨k₁, hk₁, hinv₁, hw⟩ := htick.wakeThreads (fun _ => id) h.sleepersNodup
  have hlog := hinv₁.history k₁.wakeTick k₁.ticks k₁.threadTicks (k₁.log ++ [SleepEvent.interrupt woken])
  rw [show k.current = k₁.current from hw.current.symm] at hlog
  subst hwoken
  refine ⟨_, ?_, hlog, ?_, hw.ticks, hw.wakeTick, hw.pc, fun t ht => (hw.status t).trans (if_pos ht)⟩
  · have hslice : timeSlice ≤ k.threadTicks + 1 := Nat.le_add_left 1 _
    rw [Kernel.threadTick]
    rw [hk₁]
    show Except.ok (_, decide (timeSlice ≤ k.threadTicks + 1)) = _
    rw [decide_eq_true hslice]
  · rw [hw.log]

theorem Inv.timerInterrupt :
    ∃ k', k.timerInterrupt = .ok k' ∧ Inv k' (some k'.current) ∧
      k'.log = k.log ++ [SleepEvent.interrupt woken] ∧ k'.ticks = k.ticks + 1 ∧ k'.wakeTick = k.wakeTick ∧
      (∀ t, k'.pc t = if t ∈ woken then .run else k.pc t) ∧
      ∀ t ∈ woken, k'.status t = some .ready ∨ k'.status t = some .running := by
  obtain ⟨k₁, hk₁, hinv₁, hlog, hticks, hw, hpc, hstatus⟩ := h.threadTick hwoken
  obtain ⟨k', hk', hinv', hsw⟩ := hinv₁.threadYield
  refine ⟨k', ?_, hinv', hsw.log.trans hlog, hsw.ticks.trans hticks, hsw.wakeTick.trans hw,
    fun t => (congrFun hsw.pc t).trans (hpc t), fun t ht => hsw.ready t (hstatus t ht)⟩
  rw [Kernel.timerInterrupt, hk₁]
  exact hk'

end

end Functions

section Semaphores

variable [DecidableEq S] {k : Kernel S} {sema : S}

theorem semaDown_eq (hrun : k.status k.current = some .running) : k.semaDown sema =
    if (Threads.semaDown (k.sema sema) k.current).2 then
      .ok ((k.setSema sema (Threads.semaDown (k.sema sema) k.current).1).move k.current .run)
    else ((k.setSema sema (Threads.semaDown (k.sema sema) k.current).1).move k.current (.inDown sema)).threadBlock := by
  rw [Kernel.semaDown, threadCurrent_eq hrun]
  rfl

theorem Inv.semaDown (h : Inv k (some k.current)) (hpc : k.mayDown sema (k.pc k.current) = true) :
    ∃ k' pc, k.semaDown sema = .ok k' ∧ Inv k' (some k'.current) ∧ (pc = .run ∨ pc = .inDown sema) ∧
      k'.pc = update k.pc k.current pc ∧ k'.wakeTick = k.wakeTick ∧ k'.ticks = k.ticks ∧ k'.log = k.log := by
  have hp := h.placed k.current
  have hl := hp.loose_running
  have hstart : k.pc k.current ≠ .idleStart := fun he => by
    rw [he] at hpc
    cases hpc
  have hidle : k.idleThread ≠ some k.current := hp.not_idle (fun he => by rw [he] at hpc; cases hpc)
    (fun he => by rw [he] at hpc; cases hpc)
  have hgone : ∀ pc : KernelPc S, k.status k.current = none ∨ k.status k.current = some .dying → pc = .run :=
    fun pc hg => by simp [h.status_current] at hg
  have hwaits : ∀ t ∈ (k.sema sema).waiters, t ≠ k.current := fun t ht he => hl.waiters sema (he ▸ ht)
  rw [semaDown_eq h.status_current]
  by_cases hv : (k.sema sema).value = 0
  · have hmove : Inv (k.move k.current (.inDown sema)) (some k.current) :=
      h.move hl hstart nofun nofun (fun he => absurd he hidle) (hgone _)
    have hblocked : Inv ((k.move k.current (.inDown sema)).setStatus k.current .blocked) none :=
      hmove.leave (by simp) (.inl rfl)
    have hqueue : Inv (((k.move k.current (.inDown sema)).setStatus k.current .blocked).setSema sema
        { k.sema sema with waiters := (k.sema sema).waiters ++ [k.current] }) none := by
      refine hblocked.setSema ?_ fun t ht => ?_
      · exact List.concat_eq_append ▸ List.Nodup.concat (hl.waiters sema) (h.waitersNodup sema)
      · rcases List.mem_append.mp ht with ht | ht
        · obtain ⟨hb, hd⟩ := (h.placed t).waiters sema ht
          exact ⟨by simp [hwaits t ht, hb], by simp [hwaits t ht, hd]⟩
        · rw [List.mem_singleton.mp ht]
          exact ⟨by simp, by simp⟩
    obtain ⟨k', hk', hinv', hsw⟩ := threadBlock_ok
      (k := (k.setSema sema { k.sema sema with waiters := (k.sema sema).waiters ++ [k.current] }).move k.current
        (.inDown sema)) h.status_current hqueue
    refine ⟨k', _, ?_, hinv', .inr rfl, hsw.pc, hsw.wakeTick, hsw.ticks, hsw.log⟩
    rw [semaDown_zero hv]
    exact hk'
  · have hmove : Inv (k.move k.current .run) (some k.current) :=
      h.move hl hstart nofun nofun (fun he => absurd he hidle) (hgone _)
    have hset : Inv ((k.move k.current .run).setSema sema { k.sema sema with value := (k.sema sema).value - 1 })
        (some k.current) := by
      refine hmove.setSema (h.waitersNodup sema) fun t ht => ?_
      obtain ⟨hb, hd⟩ := (h.placed t).waiters sema ht
      exact ⟨hb, by simp [hwaits t ht, hd]⟩
    refine ⟨_, _, ?_, hset, .inl rfl, rfl, rfl, rfl, rfl⟩
    rw [semaDown_pos hv]
    rfl

theorem Inv.semaTryDown (h : Inv k (some k.current)) : Inv (k.semaTryDown sema) (some k.current) := by
  have hw : (Threads.semaTryDown (k.sema sema)).1.waiters = (k.sema sema).waiters := by
    unfold Threads.semaTryDown
    split <;> rfl
  refine h.setSema (by rw [hw]; exact h.waitersNodup sema) fun t ht => ?_
  rw [hw] at ht
  exact (h.placed t).waiters sema ht

theorem Inv.semaUp (h : Inv k r) (sema : S) :
    ∃ k', k.semaUp sema = .ok k' ∧ Inv k' r ∧ k'.current = k.current ∧ Unmoved k k' := by
  rw [Kernel.semaUp]
  cases hw : (k.sema sema).waiters with
  | nil =>
    rw [semaUp_nil hw]
    refine ⟨_, rfl, h.setSema (h.waitersNodup sema) fun t ht => ?_, rfl, ⟨rfl, rfl, rfl, rfl⟩⟩
    exact (h.placed t).waiters sema ht
  | cons t ts =>
    rw [semaUp_cons hw]
    have hp := h.placed t
    obtain ⟨hb, hpc⟩ := hp.waiters sema (by simp [hw])
    have hnd := h.waitersNodup sema
    rw [hw] at hnd
    obtain ⟨hts, hnd⟩ := List.nodup_cons.mp hnd
    have hset : Inv (k.setSema sema { value := (k.sema sema).value + 1, waiters := ts }) r :=
      h.setSema hnd fun u hu => (h.placed u).waiters sema (by rw [hw]; exact List.mem_cons_of_mem t hu)
    have hi : k.idleThread ≠ some t := hp.not_idle (by simp [hpc]) (by simp [hpc])
    have hloose : Loose (k.setSema sema { value := (k.sema sema).value + 1, waiters := ts }) t := by
      refine ⟨fun hr => ?_, ?_, fun hs => ?_, fun u hu => ?_⟩
      · cases hb.symm.trans (hp.ready.mp hr).1
      · refine (forall_update_iff k.sema fun _ v => t ∉ v.waiters).mpr ⟨hts, fun sema' he hs => ?_⟩
        have hin := hpc.symm.trans (hp.waiters sema' hs).2
        exact he (KernelPc.inDown.inj hin).symm
      · cases hpc.symm.trans (hp.sleeper.mp hs)
      · cases hpc.symm.trans (hp.child u hu).2
    obtain ⟨k', hk', rfl, hinv'⟩ := hset.unblock hloose hb hi
    exact ⟨_, hk', hinv', rfl, ⟨rfl, rfl, rfl, rfl⟩⟩

end Semaphores

/-! ### The start -/

section Start

variable {k : Kernel S}

theorem Init.cases (h : Init k) : ∃ idle, idle ≠ k.current ∧ k.readyList = [idle] ∧
    ∀ t, t = idle ∧ k.status t = some .ready ∧ k.pc t = .idleStart ∨
      t = k.current ∧ k.status t = some .running ∧ k.pc t = .boot ∨
      t ≠ idle ∧ t ≠ k.current ∧ k.status t = none ∧ k.pc t = .run := by
  obtain ⟨idle, hne, hready, hstatus, hpc⟩ := h.idle
  rw [← h.current] at hne hstatus hpc
  refine ⟨idle, hne, hready, fun t => ?_⟩
  rw [hstatus, hpc]
  obtain rfl | ht := eq_or_ne t idle
  · simp
  · obtain rfl | hc := eq_or_ne t k.current
    · simp [ht]
    · simp [ht, hc]

theorem Init.inv (h : Init k) : Inv k (some k.current) := by
  obtain ⟨idle, hne, hready, hpages⟩ := h.cases
  have hstart : ∀ t, k.pc t = .idleStart → t = idle := fun t ht => by
    rcases hpages t with ⟨he, -⟩ | ⟨-, -, hp⟩ | ⟨-, -, -, hp⟩
    · exact he
    · cases hp.symm.trans ht
    · cases hp.symm.trans ht
  have hboot : ∃ t, k.pc t = .idleStart := by
    rcases hpages idle with ⟨-, -, hp⟩ | ⟨he, -⟩ | ⟨he, -⟩
    · exact ⟨idle, hp⟩
    · exact absurd he hne
    · exact absurd rfl he
  refine ⟨fun t => ?_, by simp [hready], fun sema => by simp [h.waiters], by simp [h.waitingList], fun _ => hboot,
    fun t u ht hu => (hstart t ht).trans (hstart u hu).symm, fun t _ _ ht => ?_⟩
  · have hwaits : ∀ sema, t ∉ (k.sema sema).waiters := fun sema => by simp [h.waiters]
    have hsleeper : t ∉ k.waitingList := by simp [h.waitingList]
    have hchild : ∀ u, k.child u ≠ some t := fun u => by simp [h.child]
    have hidle := h.idleThread
    rcases hpages t with ⟨rfl, hs, hp⟩ | ⟨rfl, hs, hp⟩ | ⟨hi, hc, hs, hp⟩
    · refine ⟨by simp [hs, hne.symm], by simp [hready, hs, hidle], fun sema hw => absurd hw (hwaits sema),
        by simp [hsleeper, hp], by simp [hp], by simp [hidle], fun _ => ⟨hidle, .inl hs⟩,
        fun u hu => absurd hu (hchild u), by simp [hs]⟩
    · refine ⟨by simp [hs], by simp [hready, hs, hne.symm], fun sema hw => absurd hw (hwaits sema),
        by simp [hsleeper, hp], by simp [hp], by simp [hidle], by simp [hp], fun u hu => absurd hu (hchild u),
        by simp [hs]⟩
    · refine ⟨by simp [hs, hc.symm], by simp [hready, hs, hi], fun sema hw => absurd hw (hwaits sema),
        by simp [hsleeper, hp], by simp [hp], by simp [hidle], by simp [hp], fun u hu => absurd hu (hchild u),
        fun _ => hp⟩
  · rw [h.child] at ht
    cases ht

end Start

/-! ### Steps -/

/-- What a step does to the sleeping threads. -/
inductive SleepStep (k k' : Kernel S) : Prop where
  /-- Nothing. -/
  | quiet (hlog : k'.log = k.log) (hticks : k'.ticks = k.ticks) (hphase : k'.phase = k.phase)
  /-- A thread calls `timer_sleep`. -/
  | called (t : ℕ) (n : ℤ) (hn : 0 ≤ n) (ht : k.phase t = .awake)
      (hlog : k'.log = k.log ++ [.called t k.ticks n]) (hticks : k'.ticks = k.ticks)
      (hphase : k'.phase = update k.phase t (.called (k.ticks + n)))
  /-- A thread joins `waiting_list`. -/
  | joined (t : ℕ) (due : ℤ) (ht : k.phase t = .called due)
      (hlog : k'.log = k.log ++ [.joined t]) (hticks : k'.ticks = k.ticks)
      (hphase : k'.phase = update k.phase t (.asleep due))
  /-- A timer interrupt wakes the threads that are due. -/
  | interrupt (woken : List ℕ) (hnd : woken.Nodup)
      (hmem : ∀ t, t ∈ woken ↔ ∃ due, k.phase t = .asleep due ∧ due ≤ k.ticks + 1)
      (hlog : k'.log = k.log ++ [.interrupt woken]) (hticks : k'.ticks = k.ticks + 1)
      (hphase : ∀ t, k'.phase t = if t ∈ woken then .awake else k.phase t)
      (hstatus : ∀ t ∈ woken, k'.status t = some .ready ∨ k'.status t = some .running)

section Steps

variable {k k' : Kernel S}

/-- One thread moves between points outside `timer_sleep`. -/
theorem phase_update {pc : KernelPc S} (hpc : k'.pc = update k.pc t pc) (hw : k'.wakeTick = k.wakeTick)
    (hold : k.phase t = .awake) (hnew : ∀ w, pc.phase w = .awake) : k'.phase = k.phase := by
  funext u
  obtain rfl | hu := eq_or_ne u t
  · rw [hold]
    simp [phase, hpc, hnew]
  · simp [phase, hpc, hw, hu]

theorem Unmoved.quiet (h : Unmoved k k') : SleepStep k k' := by
  refine .quiet h.log h.ticks ?_
  funext u
  simp [phase, h.pc, h.wakeTick]

theorem Switched.unmoved {status : ThreadStatus} (h : Switched (k.setStatus t status) k') : Unmoved k k' :=
  ⟨h.wakeTick, h.ticks, h.pc, h.log⟩

theorem phase_asleep_iff {due : ℤ} : k.phase t = .asleep due ↔ k.pc t = .asleep ∧ k.wakeTick t = due := by
  unfold phase
  cases k.pc t <;> simp [KernelPc.phase]

theorem outcome_safe {P : Kernel S → Prop} {r : Except Assertion (Kernel S)} (hr : r = .ok k') (h : P k') :
    (outcome r).Safe P := by
  rw [hr]
  exact h

variable [DecidableEq S]

/-- What the running thread's own step, or an interrupt, leads to. -/
def Good (k k' : Kernel S) : Prop := Inv k' (some k'.current) ∧ SleepStep k k'

section

variable (h : Inv k (some k.current))
include h

theorem Inv.step_start : (k.step .start).Safe (Good k) := by
  simp only [step]
  cases hc : k.child k.current with
  | none => trivial
  | some page =>
    refine .ite fun _ => ?_
    obtain ⟨hinv, hl, hb, hi⟩ := h.born hc
    obtain ⟨k', hk', rfl, hinv'⟩ := hinv.unblock hl hb hi
    have hunborn := ((h.placed page).child _ hc).2
    refine outcome_safe hk' ⟨hinv', .quiet rfl rfl ?_⟩
    exact phase_update rfl rfl (by simp [phase, hunborn, KernelPc.phase]) fun _ => rfl

theorem Inv.step_sleep (n : ℤ) : (k.step (.sleep n)).Safe (Good k) := by
  have hp := h.placed k.current
  refine .ite fun hpc => ?_
  by_cases hn : n < 0
  · rw [if_pos hn]
    exact ⟨h, .quiet rfl rfl rfl⟩
  · rw [if_neg hn]
    refine .ite fun _ => ?_
    have hmove : Inv (k.move k.current (.called (k.ticks + n))) (some k.current) :=
      h.move hp.loose_running (by simp [hpc]) nofun nofun
        (fun hi => absurd hi (hp.not_idle (by simp [hpc]) (by simp [hpc])))
        fun hg => by simp [h.status_current] at hg
    have hlog : Inv ({ k with log := k.log ++ [SleepEvent.called k.current k.ticks n] }.move k.current
        (.called (k.ticks + n))) (some k.current) := hmove.history k.wakeTick k.ticks k.threadTicks _
    refine ⟨hlog, .called k.current n (by omega) (by simp [phase, hpc, KernelPc.phase]) rfl rfl ?_⟩
    funext u
    obtain rfl | hu := eq_or_ne u k.current
    · simp [phase, KernelPc.phase]
    · simp [phase, hu]

theorem Inv.step_join : (k.step .join).Safe (Good k) := by
  simp only [step]
  cases hpc : k.pc k.current with
  | called wakeTick =>
    obtain ⟨k', hk', hinv', hpc', hw, hticks, hlog⟩ := h.threadAddToWaiting hpc
    refine outcome_safe hk' ⟨hinv',
      .joined k.current wakeTick (by simp [phase, hpc, KernelPc.phase]) hlog hticks ?_⟩
    funext u
    obtain rfl | hu := eq_or_ne u k.current
    · simp [phase, hpc', hw, KernelPc.phase]
    · simp [phase, hpc', hw, hu]
  | _ => trivial

theorem Inv.step_tick : (k.step .tick).Safe (Good k) := by
  refine .ite fun _ => ?_
  obtain ⟨k', hk', hinv', hlog, hticks, hw, hpc, hstatus⟩ := h.timerInterrupt rfl
  refine outcome_safe hk'
    ⟨hinv', .interrupt _ (h.sleepersNodup.filter _) (fun t => ?_) hlog hticks (fun t => ?_) hstatus⟩
  · rw [List.mem_filter, (h.placed t).sleeper, decide_eq_true_iff]
    constructor
    · rintro ⟨ha, hdue⟩
      exact ⟨k.wakeTick t, phase_asleep_iff.mpr ⟨ha, rfl⟩, hdue⟩
    · rintro ⟨due, ha, hdue⟩
      obtain ⟨hpc', rfl⟩ := phase_asleep_iff.mp ha
      exact ⟨hpc', hdue⟩
  · rw [phase, hpc t, hw]
    split <;> rfl

theorem Inv.step_idleUp : (k.step .idleUp).Safe (Good k) := by
  refine .ite fun hpc => ?_
  have hmove : Inv (k.move k.current .idleLoop) (some k.current) :=
    h.move (h.placed k.current).loose_running (by simp [hpc]) nofun nofun (fun _ => .inr rfl)
      fun hg => by simp [h.status_current] at hg
  obtain ⟨k', hk', hinv', hcur, hun⟩ := hmove.semaUp k.idleStarted
  refine outcome_safe hk' ⟨hcur ▸ hinv', .quiet hun.log hun.ticks ?_⟩
  exact phase_update hun.pc hun.wakeTick (by simp [phase, hpc, KernelPc.phase]) fun _ => rfl

/-- **Every step keeps the lists consistent and meets its assertions.** -/
theorem Inv.step (a : Action S) : (k.step a).Safe (Good k) := by
  have hp := h.placed k.current
  cases a with
  | create page =>
    refine .ite fun hc => ⟨h.create hc.2.2 hc.2.1, .quiet rfl rfl ?_⟩
    have hrun := (h.placed page).gone (.inl hc.2.2)
    funext u
    obtain rfl | hu := eq_or_ne u page
    · simp [phase, hrun, KernelPc.phase]
    · simp [phase, hu]
  | start => exact h.step_start
  | yield =>
    refine .ite fun _ => ?_
    obtain ⟨k', hk', hinv', hsw⟩ := h.threadYield
    exact outcome_safe hk' ⟨hinv', hsw.quiet⟩
  | down sema =>
    refine .ite fun hpc => ?_
    obtain ⟨k', pc, hk', hinv', hnew, hpc', hw, hticks, hlog⟩ := h.semaDown hpc
    refine outcome_safe hk' ⟨hinv', .quiet hlog hticks (phase_update hpc' hw ?_ ?_)⟩
    · unfold phase
      cases hold : k.pc k.current <;> rw [hold] at hpc <;> first | rfl | cases hpc
    · rcases hnew with rfl | rfl <;> exact fun _ => rfl
  | tryDown sema => exact .ite fun _ => ⟨h.semaTryDown, .quiet rfl rfl rfl⟩
  | up sema =>
    refine .ite fun _ => ?_
    obtain ⟨k', hk', hinv', hcur, hun⟩ := h.semaUp sema
    exact outcome_safe hk' ⟨hcur ▸ hinv', hun.quiet⟩
  | sleep n => exact h.step_sleep n
  | join => exact h.step_join
  | tick => exact h.step_tick
  | exit =>
    refine .ite fun hc => ?_
    obtain ⟨k', hk', hinv', hsw⟩ := h.threadExit hc.1 (hp.not_idle (by simp [hc.1]) (by simp [hc.1]))
    exact outcome_safe hk' ⟨hinv', hsw.unmoved.quiet⟩
  | setIdle =>
    refine .ite fun hpc => ⟨h.setIdle hpc, .quiet rfl rfl ?_⟩
    exact phase_update rfl rfl (by simp [phase, hpc, KernelPc.phase]) fun _ => rfl
  | idleUp => exact h.step_idleUp
  | idleBlock =>
    refine .ite fun hpc => ?_
    obtain ⟨k', hk', hinv', hsw⟩ := threadBlock_ok h.status_current (h.leave (by simp [hpc]) (.inl rfl))
    exact outcome_safe hk' ⟨hinv', hsw.unmoved.quiet⟩

end

/-! ### All runs -/

theorem reach_safe (h : system.Reach k) : Inv k (some k.current) ∧ ∀ a, k.step a ≠ .fault :=
  h.safe (P := fun k => Inv k (some k.current)) (fun _ hi => Init.inv hi) fun _ a hm =>
    (hm.step a).mono fun _ hgood => hgood.1

theorem reach_inv (h : system.Reach k) : Inv k (some k.current) := (reach_safe h).1

/-- **The lists and the states of the threads agree** in every state of every run, and no
assertion fails. -/
theorem lists_consistent (h : system.Reach k) :
    (∀ t, k.status t = some .running ↔ t = k.current) ∧
    (∀ t, k.idleThread ≠ some t → (k.status t = some .ready ↔ t ∈ k.readyList)) ∧ k.readyList.Nodup ∧
    (∀ sema, (k.sema sema).waiters.Nodup) ∧ k.waitingList.Nodup ∧
    (∀ sema, ∀ t ∈ (k.sema sema).waiters, k.status t = some .blocked ∧ t ∉ k.readyList ∧ t ∉ k.waitingList ∧
      ∀ sema', t ∈ (k.sema sema').waiters → sema' = sema) ∧
    (∀ t ∈ k.waitingList, k.status t = some .blocked ∧ t ∉ k.readyList ∧ ∀ sema, t ∉ (k.sema sema).waiters) ∧
    (∀ t, k.status t = some .dying → t ∉ k.readyList ∧ t ∉ k.waitingList ∧ ∀ sema, t ∉ (k.sema sema).waiters) ∧
    ∀ a, k.step a ≠ .fault := by
  obtain ⟨hinv, hfault⟩ := reach_safe h
  refine ⟨fun t => ?_, fun t hi => ?_, hinv.readyNodup, hinv.waitersNodup, hinv.sleepersNodup, fun sema t ht => ?_,
    fun t ht => ?_, fun t ht => ?_, hfault⟩
  · rw [(hinv.placed t).running]
    exact ⟨fun he => (Option.some.inj he).symm, fun he => by rw [he]⟩
  · rw [(hinv.placed t).ready]
    exact ⟨fun hs => ⟨hs, hi⟩, fun hs => hs.1⟩
  · have hp := hinv.placed t
    obtain ⟨hb, hpc⟩ := hp.waiters sema ht
    refine ⟨hb, fun hr => ?_, fun hs => ?_, fun sema' ht' => ?_⟩
    · cases hb.symm.trans (hp.ready.mp hr).1
    · cases hpc.symm.trans (hp.sleeper.mp hs)
    · cases hpc.symm.trans (hp.waiters sema' ht').2
      rfl
  · have hp := hinv.placed t
    have hpc := hp.sleeper.mp ht
    refine ⟨hp.asleep hpc, fun hr => ?_, fun sema hs => ?_⟩
    · cases (hp.asleep hpc).symm.trans (hp.ready.mp hr).1
    · cases hpc.symm.trans (hp.waiters sema hs).2
  · have hl := (hinv.placed t).loose (by rw [ht]; exact nofun) (by rw [ht]; exact nofun)
    exact ⟨hl.ready, hl.sleeper, hl.waiters⟩

end Steps

/-- A run: the idle thread starts, the initial thread goes on and sleeps for two ticks, and
the idle thread runs meanwhile. -/
theorem lists_consistent_sleeping : ∃ k : Kernel Unit, k.waitingList = [0] ∧ k.current = 1 ∧
    k.status 0 = some .blocked ∧ 0 ∉ k.readyList := by
  have hrun : system.replay (boot : Kernel Unit)
    [.tick, .setIdle, .idleUp, .tick, .down (), .sleep 2, .join, .tick, .idleBlock] = .next _ := rfl
  have hlists := (lists_consistent (.replay (.init boot_init) hrun)).2.2.2.2.2.2.1 0 (by decide)
  exact ⟨_, rfl, rfl, hlists.1, hlists.2.1⟩

end Pintos.Threads.Kernel
