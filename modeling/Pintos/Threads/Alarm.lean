import Pintos.Basis.History
import Pintos.Threads.ThreadLists

/-!
# Sleeping threads (`timer_sleep` and `thread_tick`)

`timer_sleep (n)` computes the wake-up time from the clock, and joins `waiting_list` in a
second step; between the two the thread may lose the processor and the clock may go on.
Every timer interrupt walks the unsorted list and wakes the threads whose time has come.

## The model

The history of a run is the `log` of `Pintos.Threads.Thread`: calls of `timer_sleep`, joins,
and timer interrupts with the threads they make ready. `phaseAfter` reads off the history
what a thread has to do with `timer_sleep`, and `clock` counts the interrupts; neither
looks at the kernel. `Permitted` says which event may follow a history, `Regular` that
every event of a history may.

## What is proved

Every step of the kernel appends at most one event and that event is permitted
(`SleepStep.agrees`), so every history is regular. From that alone follows when a thread
is woken (`Regular.woken_iff`) and that it is not woken again (`Regular.not_woken_again`).
`Kernel.timer_sleep_wakes` puts this together with the state of the kernel: **a sleeper is
woken once, by the first timer interrupt after it joined at or after its wake-up time**,
and is blocked until then.
-/

namespace Pintos.Threads

/-! ### Histories -/

/-- What an event changes for thread `t`. -/
def Phase.after (t : ℕ) (p : Phase) : SleepEvent → Phase
  | .called u now n => if u = t then .called (now + n) else p
  | .joined u =>
    if u = t then
      match p with
      | .called due => .asleep due
      | p => p
    else p
  | .interrupt woken => if t ∈ woken then .awake else p

/-- What thread `t` has to do with `timer_sleep` after a history. -/
def phaseAfter (log : List SleepEvent) (t : ℕ) : Phase := log.foldl (Phase.after t) .awake

/-- The event is a timer interrupt. -/
def SleepEvent.isInterrupt : SleepEvent → Bool
  | .interrupt _ => true
  | _ => false

/-- The number of timer interrupts. -/
def clock (log : List SleepEvent) : ℤ := log.countP SleepEvent.isInterrupt

/-- The event may follow the history: a thread that is awake calls `timer_sleep` and learns
the time, a thread that called joins, and an interrupt wakes the sleepers that are due. -/
def Permitted (past : List SleepEvent) : SleepEvent → Prop
  | .called t now n => phaseAfter past t = .awake ∧ now = clock past ∧ 0 ≤ n
  | .joined t => ∃ due, phaseAfter past t = .called due
  | .interrupt woken => woken.Nodup ∧
      ∀ t, t ∈ woken ↔ ∃ due, phaseAfter past t = .asleep due ∧ due ≤ clock past + 1

/-- Every event of the history was permitted. -/
def Regular (log : List SleepEvent) : Prop := ∀ past e rest, log = past ++ e :: rest → Permitted past e

section Histories

variable {log past mid rest : List SleepEvent} {e : SleepEvent} {t : ℕ}

theorem phaseAfter_append (e : SleepEvent) (t : ℕ) :
    phaseAfter (log ++ [e]) t = (phaseAfter log t).after t e := by
  simp [phaseAfter]

theorem clock_append_interrupt (w : List ℕ) : clock (log ++ [.interrupt w]) = clock log + 1 := by
  simp [clock, SleepEvent.isInterrupt]

theorem clock_append_of_not (h : e.isInterrupt = false) : clock (log ++ [e]) = clock log := by
  simp [clock, h]

theorem Regular.left (h : Regular (past ++ rest)) : Regular past := Lawful.left h

theorem Regular.append (h : Regular log) (he : Permitted log e) : Regular (log ++ [e]) := Lawful.append h he

theorem Regular.last (h : Regular (log ++ [e])) : Permitted log e := h log e [] rfl

theorem Regular.phase_of_called {due : ℤ} (h : Regular (past ++ mid)) (hcall : phaseAfter past t = .called due)
    (hno : ∀ w, .interrupt w ∈ mid → t ∉ w) :
    phaseAfter (past ++ mid) t = if .joined t ∈ mid then .asleep due else .called due := by
  induction mid using List.reverseRecOn with
  | nil => simpa using hcall
  | append_singleton mid e ih =>
    rw [← List.append_assoc] at h ⊢
    have hphase := ih h.left fun w hw => hno w (List.mem_append_left _ hw)
    have hperm := h.last
    rw [phaseAfter_append, hphase]
    cases e with
    | called u now n =>
      -- a thread in `timer_sleep` does not call it again
      have hut : u ≠ t := by
        rintro rfl
        have hawake := hperm.1
        rw [hphase] at hawake
        split at hawake <;> cases hawake
      simp [Phase.after, hut]
    | joined u =>
      obtain rfl | hut := eq_or_ne u t
      · obtain ⟨d, hd⟩ := hperm
        rw [hphase] at hd
        by_cases hj : SleepEvent.joined u ∈ mid
        · rw [if_pos hj] at hd
          cases hd
        · simp [Phase.after, hj]
      · simp [Phase.after, hut, hut.symm]
    | interrupt w =>
      have hw : t ∉ w := hno w (by simp)
      simp [Phase.after, hw]

theorem Regular.phase_of_awake (h : Regular (past ++ mid)) (hawake : phaseAfter past t = .awake)
    (hno : ∀ now n, .called t now n ∉ mid) : phaseAfter (past ++ mid) t = .awake := by
  induction mid using List.reverseRecOn with
  | nil => simpa using hawake
  | append_singleton mid e ih =>
    rw [← List.append_assoc] at h ⊢
    have hphase := ih h.left fun now n hm => hno now n (List.mem_append_left _ hm)
    rw [phaseAfter_append, hphase]
    cases e with
    | called u now n =>
      have hut : u ≠ t := by
        rintro rfl
        exact hno now n (by simp)
      simp [Phase.after, hut]
    | joined u | interrupt w => simp [Phase.after]

/-- **When a sleeper is woken**: by the interrupt that finds it on the list, at or after its
wake-up time. -/
theorem Regular.woken_iff (h : Regular log) {now n : ℤ} {w : List ℕ}
    (hlog : log = past ++ .called t now n :: (mid ++ .interrupt w :: rest)) (hno : ∀ w', .interrupt w' ∈ mid → t ∉ w') :
    now = clock past ∧ w.Nodup ∧
      (t ∈ w ↔ .joined t ∈ mid ∧ now + n ≤ clock (past ++ .called t now n :: (mid ++ [.interrupt w]))) := by
  have hcall := h past _ _ hlog
  have hpast : past ++ .called t now n :: (mid ++ .interrupt w :: rest) =
      (past ++ [.called t now n] ++ mid) ++ .interrupt w :: rest := by simp
  obtain ⟨hnd, hmem⟩ := h _ _ _ (hlog.trans hpast)
  have hregular : Regular (past ++ [.called t now n] ++ mid) := (hlog.trans hpast ▸ h).left
  have hstart : phaseAfter (past ++ [.called t now n]) t = .called (now + n) := by simp [phaseAfter_append, Phase.after]
  have hphase := hregular.phase_of_called hstart hno
  have hclock : clock (past ++ .called t now n :: (mid ++ [.interrupt w])) =
      clock (past ++ [.called t now n] ++ mid) + 1 := by
    rw [← clock_append_interrupt w]
    simp
  refine ⟨hcall.2.1, hnd, ?_⟩
  rw [hmem t, hphase, hclock]
  by_cases hj : SleepEvent.joined t ∈ mid
  · simp [hj]
  · simp [hj]

theorem Regular.not_woken_again (h : Regular log) {w w' : List ℕ}
    (hlog : log = past ++ .interrupt w :: (mid ++ .interrupt w' :: rest)) (ht : t ∈ w)
    (hno : ∀ now n, .called t now n ∉ mid) : t ∉ w' := by
  have hpast : past ++ .interrupt w :: (mid ++ .interrupt w' :: rest) =
      (past ++ [.interrupt w] ++ mid) ++ .interrupt w' :: rest := by simp
  have hregular : Regular (past ++ [.interrupt w] ++ mid) := (hlog.trans hpast ▸ h).left
  have hstart : phaseAfter (past ++ [.interrupt w]) t = .awake := by simp [phaseAfter_append, Phase.after, ht]
  have hphase := hregular.phase_of_awake hstart hno
  intro hw'
  obtain ⟨-, hmem⟩ := h _ _ _ (hlog.trans hpast)
  obtain ⟨due, hdue, -⟩ := (hmem t).mp hw'
  cases hphase.symm.trans hdue

end Histories

/-! ### The history of the kernel -/

namespace Kernel

variable {S : Type} {k k' : Kernel S}

/-- The kernel is where its history says. -/
structure Agrees (k : Kernel S) : Prop where
  regular : Regular k.log
  ticks : k.ticks = clock k.log
  phase : ∀ t, k.phase t = phaseAfter k.log t

theorem SleepStep.agrees (h : SleepStep k k') (hk : k.Agrees) : k'.Agrees := by
  obtain ⟨hreg, hticks, hphase⟩ := hk
  cases h with
  | quiet hlog htick' hphase' =>
    exact ⟨hlog ▸ hreg, by rw [htick', hlog, hticks], fun t => by rw [hphase', hlog, hphase]⟩
  | called t n hn ht hlog htick' hphase' =>
    have hperm : Permitted k.log (.called t k.ticks n) := ⟨hphase t ▸ ht, hticks, hn⟩
    refine ⟨hlog ▸ hreg.append hperm, ?_, fun u => ?_⟩
    · rw [htick', hlog, clock_append_of_not rfl, hticks]
    · rw [hphase', hlog, phaseAfter_append, ← hphase u]
      obtain rfl | hu := eq_or_ne u t
      · simp [Phase.after]
      · simp [Phase.after, hu, hu.symm]
  | joined t due ht hlog htick' hphase' =>
    have hperm : Permitted k.log (.joined t) := ⟨due, hphase t ▸ ht⟩
    refine ⟨hlog ▸ hreg.append hperm, ?_, fun u => ?_⟩
    · rw [htick', hlog, clock_append_of_not rfl, hticks]
    · rw [hphase', hlog, phaseAfter_append, ← hphase u]
      obtain rfl | hu := eq_or_ne u t
      · simp [Phase.after, ht]
      · simp [Phase.after, hu, hu.symm]
  | interrupt woken hnd hmem hlog htick' hphase' _ =>
    have hperm : Permitted k.log (.interrupt woken) := by
      refine ⟨hnd, fun t => ?_⟩
      rw [hmem t, hticks, hphase t]
    refine ⟨hlog ▸ hreg.append hperm, ?_, fun u => ?_⟩
    · rw [htick', hlog, clock_append_interrupt, hticks]
    · rw [hphase' u, hlog, phaseAfter_append, ← hphase u]
      simp only [Phase.after]

theorem Init.agrees (h : Init k) : k.Agrees := by
  obtain ⟨idle, -, -, hpages⟩ := h.cases
  refine ⟨h.log ▸ Lawful.nil, by rw [h.ticks, h.log]; rfl, fun t => ?_⟩
  rw [h.log]
  rcases hpages t with ⟨-, -, hp⟩ | ⟨-, -, hp⟩ | ⟨-, -, -, hp⟩ <;> simp [phase, hp, KernelPc.phase, phaseAfter]

theorem SleepStep.sleeper (h : SleepStep k k') (hk : Inv k (some k.current)) (hk' : Inv k' (some k'.current)) {t : ℕ}
    (ht : t ∈ k.waitingList) : t ∈ k'.waitingList ∨
      ∃ w, k'.log = k.log ++ [.interrupt w] ∧ t ∈ w ∧ (k'.status t = some .ready ∨ k'.status t = some .running) := by
  have hasleep : k.phase t = .asleep (k.wakeTick t) := phase_asleep_iff.mpr ⟨(hk.placed t).sleeper.mp ht, rfl⟩
  have hstay : k'.phase t = .asleep (k.wakeTick t) → t ∈ k'.waitingList := fun he =>
    (hk'.placed t).sleeper.mpr (phase_asleep_iff.mp he).1
  cases h with
  | quiet _ _ hphase => exact .inl (hstay (by rw [hphase, hasleep]))
  | called u n _ hu _ _ hphase | joined u due hu _ _ hphase =>
    have hut : t ≠ u := by
      rintro rfl
      cases hasleep.symm.trans hu
    exact .inl (hstay (by rw [hphase, Function.update_of_ne hut, hasleep]))
  | interrupt w _ _ hlog _ hphase hstatus =>
    by_cases hw : t ∈ w
    · exact .inr ⟨w, hlog, hw, hstatus t hw⟩
    · exact .inl (hstay (by rw [hphase t, if_neg hw, hasleep]))

variable [DecidableEq S]

theorem reach_agrees (h : system.Reach k) : k.Agrees := by
  have hboth : Inv k (some k.current) ∧ k.Agrees := by
    refine h.invariant (P := fun k => Inv k (some k.current) ∧ k.Agrees) (fun _ hi => ⟨Init.inv hi, Init.agrees hi⟩) ?_
    rintro m a n ⟨hinv, hag⟩ hs
    obtain ⟨hinv', hsleep⟩ := (hinv.step a).of_next hs
    exact ⟨hinv', hsleep.agrees hag⟩
  exact hboth.2

/-- **`timer_sleep`.** Take any call `timer_sleep (n)` of thread `t` in the history of a run, at
tick `now`, and the interrupts that follow. The first of them that makes `t` ready is the
first that comes after `t` joined `waiting_list` and whose tick is at least `now + n`; it
makes `t` ready once, and no later interrupt does before `t` sleeps again. While a thread
is on the list, it is blocked, it is there once, and only such an interrupt takes it off
and makes it ready. -/
theorem timer_sleep_wakes (h : system.Reach k) :
    (∀ past t now n mid w rest, k.log = past ++ .called t now n :: (mid ++ .interrupt w :: rest) →
      (∀ w', .interrupt w' ∈ mid → t ∉ w') → now = clock past ∧ w.Nodup ∧
        (t ∈ w ↔ .joined t ∈ mid ∧ now + n ≤ clock (past ++ .called t now n :: (mid ++ [.interrupt w])))) ∧
    (∀ past t w mid w' rest, k.log = past ++ .interrupt w :: (mid ++ .interrupt w' :: rest) → t ∈ w →
      (∀ now n, .called t now n ∉ mid) → t ∉ w') ∧
    k.ticks = clock k.log ∧
    (∀ t, t ∈ k.waitingList ↔ ∃ due, phaseAfter k.log t = .asleep due) ∧
    (∀ t ∈ k.waitingList, k.status t = some .blocked ∧ k.waitingList.count t = 1 ∧
      phaseAfter k.log t = .asleep (k.wakeTick t)) ∧
    (∀ a k', k.step a = .next k' → ∀ t ∈ k.waitingList, t ∈ k'.waitingList ∨
      ∃ w, k'.log = k.log ++ [.interrupt w] ∧ t ∈ w ∧ (k'.status t = some .ready ∨ k'.status t = some .running)) := by
  have hinv := reach_inv h
  have hag := reach_agrees h
  refine ⟨fun past t now n mid w rest hlog hno => hag.regular.woken_iff hlog hno,
    fun past t w mid w' rest hlog ht hno => hag.regular.not_woken_again hlog ht hno, hag.ticks, fun t => ?_,
    fun t ht => ?_, fun a k' hs t ht => ?_⟩
  · rw [(hinv.placed t).sleeper, ← hag.phase t]
    constructor
    · intro hpc
      exact ⟨k.wakeTick t, phase_asleep_iff.mpr ⟨hpc, rfl⟩⟩
    · rintro ⟨due, hdue⟩
      exact (phase_asleep_iff.mp hdue).1
  · have hpc := (hinv.placed t).sleeper.mp ht
    refine ⟨(hinv.placed t).asleep hpc, List.count_eq_one_of_mem hinv.sleepersNodup ht, ?_⟩
    rw [← hag.phase t]
    exact phase_asleep_iff.mpr ⟨hpc, rfl⟩
  · obtain ⟨hinv', hsleep⟩ := (hinv.step a).of_next hs
    exact hsleep.sleeper hinv hinv' ht

/-- A run in which the initial thread sleeps for two ticks and is woken by the second interrupt. -/
theorem timer_sleep_wakes_second : ∃ k : Kernel Unit, k.log = [.interrupt [], .interrupt [], .called 0 2 2, .joined 0,
    .interrupt [], .interrupt [0]] ∧ (2 : ℤ) + 2 ≤ clock k.log := by
  obtain ⟨k, hrun, hlog⟩ : ∃ k : Kernel Unit, system.replay boot
      [.tick, .setIdle, .idleUp, .tick, .down (), .sleep 2, .join, .tick, .tick] = .next k ∧
      k.log = [.interrupt [], .interrupt []] ++ .called 0 2 2 :: ([.joined 0, .interrupt []] ++ [.interrupt [0]]) :=
    ⟨_, rfl, rfl⟩
  have hwake := (timer_sleep_wakes (.replay (.init boot_init) hrun)).1 _ 0 2 2 _ [0] [] hlog (by simp)
  exact ⟨k, hlog, hlog ▸ (hwake.2.2.mp (by decide)).2⟩

end Kernel

end Pintos.Threads
