import Pintos.Threads.Lock

/-!
# The interrupts of a disk channel (`devices/disk.c`)

`disk_read` and `disk_write` take the lock of the channel, issue a command, and sleep at
`completion_wait` until the interrupt handler ups it.

## The model

Threads of any type run the two functions, one at a time because of the lock, and an interrupt can
arrive between any two steps. Of the lock the model has its owner, who changes as that of a lock of
`Pintos.Threads.Lock` does (`lock_turn`). What goes over the ports, before `sema_down` in
`disk_write` and after it in `disk_read`, touches nothing of the channel: a thread that does it is
at its next step. A `PANIC` ends the run. `Command` says what the hardware has been told; no step
reads it.

## What is proved

`expecting_interrupt` is set by the first command and never cleared, so the handler takes a later
spurious interrupt for a completion, and the `sema_down` of the next command returns at once
(`sema_down_too_early`). In the runs without such an interrupt the channel works
(**`channel_completes`**).
-/

namespace Pintos.Devices.Disk

open Threads (Semaphore semaInit semaDown semaUp)
open Threads.Lock (Turn)

/-- Where the thread with the lock is. -/
inductive Pc where
  /-- About to set `expecting_interrupt`. -/
  | expect
  /-- At the `outb` of `issue_pio_command`. -/
  | command
  /-- In the loop of `sema_down`, about to test the value. -/
  | down
  /-- Blocked in `sema_down`. -/
  | asleep
  /-- At `lock_release`. -/
  | release

/-- A command on the channel. -/
inductive Command (τ : Type) where
  | none
  | issued (t : τ)
  /-- Its interrupt has arrived; the thread is not back from `sema_down`. -/
  | completed (t : τ)

variable {τ : Type}

/-- The interrupt of a command. -/
def Command.complete : Command τ → Command τ
  | .issued t => .completed t
  | c => c

/-- The thread is back from `sema_down`. -/
def Command.finish : Command τ → Command τ
  | .completed _ => .none
  | c => c

/-- `struct channel`. -/
structure State (τ : Type) where
  /-- Who has `lock`. -/
  holder : Option (τ × Pc)
  /-- `expecting_interrupt`. -/
  expecting : Bool
  /-- `completion_wait`. -/
  sema : Semaphore τ
  command : Command τ

/-- What can happen. -/
inductive Act (τ : Type) where
  /-- A thread takes its next step. -/
  | advance (t : τ)
  /-- An interrupt on the irq of the channel. -/
  | interrupt

/-- The next step of the thread with the lock. -/
def State.advance (s : State τ) (t : τ) : Pc → Outcome (State τ)
  | .expect => .next { s with expecting := true, holder := some (t, .command) }
  | .command => .next { s with command := .issued t, holder := some (t, .down) }
  | .down =>
    let (sema, passed) := semaDown s.sema t
    if passed then .next { s with sema := sema, command := s.command.finish, holder := some (t, .release) }
    else .next { s with sema := sema, holder := some (t, .asleep) }
  | .asleep => .disabled
  | .release => .next { s with holder := none }

/-- `interrupt_handler`; `sema_up` unblocks a thread that is blocked. -/
def State.interrupt (s : State τ) : Outcome (State τ) :=
  if s.expecting then
    let (sema, woken) := semaUp s.sema
    let s := { s with sema := sema, command := s.command.complete }
    match woken, s.holder with
    | none, _ => .next s
    | some _, some (t, .asleep) => .next { s with holder := some (t, .down) }
    | some _, _ => .fault
  else .next s

/-- All runs, from a channel as `disk_init` leaves it. -/
def channel (τ : Type) [DecidableEq τ] : System (State τ) (Act τ) where
  init s := s.holder = none ∧ s.sema = semaInit 0 ∧ s.command = .none
  step s
    | .advance t =>
      match s.holder with
      | none => .next { s with holder := some (t, .expect) }
      | some (u, p) => if u = t then s.advance t p else .disabled
    | .interrupt => s.interrupt

/-! ### The lock -/

/-- The thread that has `lock`. -/
def State.owner (s : State τ) : Option τ := s.holder.map Prod.fst

theorem State.advance_turn {s s' : State τ} {t : τ} {p : Pc} (h : s.advance t p = .next s') :
    Turn t (some t) s'.owner := by
  cases p with
  | expect | command =>
    cases h
    exact .same _
  | down =>
    simp only [State.advance] at h
    split at h <;> cases h <;> exact .same _
  | asleep => cases h
  | release =>
    cases h
    exact .give

theorem State.interrupt_owner {s s' : State τ} (h : s.interrupt = .next s') : s'.owner = s.owner := by
  unfold State.interrupt at h
  split at h
  · dsimp only at h
    split at h <;> cases h
    · rfl
    · rename_i hholder
      exact (congrArg (Option.map Prod.fst) hholder).symm
  · cases h
    rfl

/-- **The lock of the channel changes hands as a lock does.** -/
theorem lock_turn [DecidableEq τ] {s s' : State τ} {a : Act τ} (h : (channel τ).step s a = .next s') :
    s'.owner = s.owner ∨ ∃ t, a = .advance t ∧ Turn t s.owner s'.owner := by
  obtain ⟨holder, expecting, sema, command⟩ := s
  cases a with
  | interrupt => exact .inl (State.interrupt_owner h)
  | advance t =>
    refine .inr ⟨t, rfl, ?_⟩
    cases holder with
    | none =>
      cases h
      exact .take
    | some up =>
      obtain ⟨rfl, h⟩ := Outcome.ite_eq_next.mp h
      exact State.advance_turn h
/-! ### The semaphore -/

/-- An interrupt that the handler takes for a completion is that of a command. -/
def genuine (s : State τ) : Act τ → Bool
  | .interrupt => !s.expecting || match s.command with | .issued _ => true | _ => false
  | .advance _ => true

/-- The invariant: the thread with the lock, the command and the semaphore. -/
inductive Phase : Option (τ × Pc) → Command τ → Semaphore τ → Prop where
  | free : Phase none .none ⟨0, []⟩
  | expect (t : τ) : Phase (some (t, .expect)) .none ⟨0, []⟩
  | command (t : τ) : Phase (some (t, .command)) .none ⟨0, []⟩
  | issued (t : τ) : Phase (some (t, .down)) (.issued t) ⟨0, []⟩
  | asleep (t : τ) : Phase (some (t, .asleep)) (.issued t) ⟨0, [t]⟩
  | completed (t : τ) : Phase (some (t, .down)) (.completed t) ⟨1, []⟩
  | release (t : τ) : Phase (some (t, .release)) .none ⟨0, []⟩

theorem Phase.step [DecidableEq τ] {s : State τ} {a : Act τ} (h : Phase s.holder s.command s.sema)
    (ha : genuine s a = true) :
    ((channel τ).step s a).Safe fun s => Phase s.holder s.command s.sema := by
  obtain ⟨holder, expecting, sema, command⟩ := s
  cases a with
  | advance t =>
    cases h with
    | free => exact .expect t
    | expect => exact .ite fun _ => .command t
    | command => exact .ite fun _ => .issued t
    | issued =>
      refine .ite fun hu => ?_
      subst hu
      exact .asleep _
    | asleep => exact .ite fun _ => trivial
    | completed =>
      refine .ite fun hu => ?_
      have hdown : semaDown ⟨1, []⟩ t = (⟨0, []⟩, true) := by simp [semaDown]
      simp only [State.advance, hdown]
      exact .release t
    | release => exact .ite fun _ => .free
  | interrupt =>
    cases expecting with
    | false => exact h
    | true =>
      cases h with
      | free | expect | command | completed | release => cases ha
      | issued t | asleep t => exact .completed t

/-- **The channel works as long as an interrupt is taken for a completion only while a command is
issued.** Then `completion_wait` is 0 when there is no command, `sema_down` returns only after the
interrupt of the thread's own command, and `sema_up` wakes a thread that sleeps. -/
theorem channel_completes [DecidableEq τ] {s : State τ} (h : ((channel τ).guard genuine).Reach s) :
    (s.command = .none → s.sema.value = 0) ∧
      (∀ t, s.holder = some (t, .down) → (semaDown s.sema t).2 = true → s.command = .completed t) ∧
      ∀ a, genuine s a = true → (channel τ).step s a ≠ .fault := by
  have hphase : Phase s.holder s.command s.sema := by
    refine h.invariant (P := fun s => Phase s.holder s.command s.sema) (fun s hs => ?_) fun s a t hs ht => ?_
    · rw [hs.1, hs.2.1, hs.2.2]
      exact .free
    · obtain ⟨ha, hstep⟩ := System.guard_step_eq_next.mp ht
      exact (hs.step ha).of_next hstep
  refine ⟨fun hnone => ?_, fun t ht hpassed => ?_, fun a ha => (hphase.step ha).ne_fault⟩
  · rw [hnone] at hphase
    generalize s.holder = o, s.sema = m at hphase
    cases hphase <;> rfl
  · rw [ht] at hphase
    generalize s.command = c, s.sema = m at hphase hpassed ⊢
    cases hphase with
    | issued => cases hpassed
    | completed => rfl

/-- The channel after `disk_init`. -/
def initial : State ℕ := ⟨none, false, semaInit 0, .none⟩

/-- A thread goes to its `sema_down`. -/
def issue (t : ℕ) : List (Act ℕ) := List.replicate 3 (.advance t)

/-- The interrupt arrives before `sema_down`. -/
theorem channel_completes_read : ∃ s, ((channel ℕ).guard genuine).replay initial (issue 3 ++ [.interrupt]) = .next s ∧
    (semaDown s.sema 3).2 = true ∧ s.command = .completed 3 := by
  obtain ⟨s, hs, ht, hpassed⟩ : ∃ s, ((channel ℕ).guard genuine).replay initial (issue 3 ++ [.interrupt]) = .next s ∧
      s.holder = some (3, .down) ∧ (semaDown s.sema 3).2 = true := ⟨_, rfl, rfl, by decide⟩
  obtain ⟨-, hdown, -⟩ := channel_completes (System.Reach.replay (.init ⟨rfl, rfl, rfl⟩) hs)
  exact ⟨s, hs, hpassed, hdown 3 ht hpassed⟩

/-- After the command of a thread there is an interrupt more: there is no command, but the semaphore
is 1. Then another thread issues a command, and `sema_down` returns before the interrupt. -/
theorem sema_down_too_early : ∃ s t, (channel ℕ).replay initial
      (issue 3 ++ .interrupt :: List.replicate 2 (.advance 3) ++ [.interrupt]) = .next s ∧ s.command = .none ∧
    s.sema.value = 1 ∧ (channel ℕ).replay s (issue 4) = .next t ∧ t.holder = some (4, .down) ∧ t.command = .issued 4 ∧
    (semaDown t.sema 4).2 = true :=
  ⟨_, _, rfl, rfl, rfl, rfl, rfl, rfl, by decide⟩

end Pintos.Devices.Disk
