import Pintos.Threads.Condition

/-!
# Synchronized lists (`threads/synchlist.c`)

A `SynchList` is a list with a lock and a condition variable: `sl_append` puts an item at
the end and signals, `sl_remove` waits until there is an item and takes the first.

## The model

The lock and the condition variable are those of `Pintos.Threads.Condition`, with all their
points; only `sl_append` and `sl_remove` use them. `SlPc` names the points of the two functions, and
at each of them a thread may lose the processor, the calls of `lock_acquire`, `lock_release`,
`cond_wait` and `cond_signal` with all their inner points included. There is always
memory for an element. A `list_pop_front` of an empty list is a fault. `appended` and `removed` are
history: the items in the order of the pushes and in the order of the pops.

## What is proved

**`synchList_correct`**: in every interleaving what was removed is the beginning of what was
appended, no assertion fails, and no list is popped while it is empty; and while the lock is free
and a thread is queued, there are at most as many items as there are threads that were signalled and
do not have the lock again yet. A signal is lost on no item: an item that is pushed is owed to the
thread that is signalled for it, or the thread that has the lock is about to signal or to pop
(`credit`).
-/

namespace Pintos.Threads

open Function

namespace Lock

variable {τ : Type}

/-- A step of `lock_acquire`. -/
def Action.enters : Action τ → Bool
  | .acquire _ | .down _ | .setHolder _ => true
  | .tryAcquire _ | .tryDown _ | .release _ | .clearHolder _ | .up _ => false

/-- A step of `lock_release`. -/
def Action.leaves : Action τ → Bool
  | .release _ | .clearHolder _ | .up _ => true
  | .acquire _ | .down _ | .setHolder _ | .tryAcquire _ | .tryDown _ => false

end Lock

/-- On the way to the lock, or with it. -/
def LockPc.entering : LockPc → Bool
  | .outside | .acquiring | .taken | .holding => true
  | .trying | .releasing | .cleared => false

/-- With the lock, or on the way out. -/
def LockPc.leaving : LockPc → Bool
  | .holding | .releasing | .cleared | .outside => true
  | .acquiring | .trying | .taken => false

namespace Lock

variable {τ : Type} [DecidableEq τ] {l m : Lock τ} {a : Action τ}

/-- In `lock_acquire` a thread stays on the way to the lock, and does not lose it. -/
theorem step_entering (h : l.step a = .next m) (ha : a.enters = true) :
    (m.pc a.thread).entering = true ∧ ((l.pc a.thread).owns = true → (m.pc a.thread).owns = true) := by
  cases a with
  | acquire t =>
    simp only [step] at h
    repeat' split at h
    all_goals cases h
    rename_i ht _
    simp [Action.thread, LockPc.entering, not_not.mp ht, LockPc.owns]
  | down t =>
    simp only [step] at h
    split at h
    · cases h
    · rename_i ht
      cases h
      have hpc := not_not.mp (not_or.mp ht).1
      simp only [Action.thread, move_pc_self, hpc]
      split <;> simp [LockPc.entering, LockPc.owns]
  | setHolder t =>
    simp only [step] at h
    split at h <;> cases h
    simp [Action.thread, LockPc.entering, LockPc.owns]
  | _ => cases ha

/-- In `lock_release` a thread stays on the way out, and does not get the lock. -/
theorem step_leaving (h : l.step a = .next m) (ha : a.leaves = true) : (m.pc a.thread).leaving = true := by
  cases a with
  | release t | up t =>
    simp only [step] at h
    repeat' split at h
    all_goals cases h
    simp [Action.thread, LockPc.leaving]
  | clearHolder t =>
    simp only [step] at h
    split at h <;> cases h
    simp [Action.thread, LockPc.leaving]
  | _ => cases ha

end Lock

namespace Condition

variable {τ : Type} [DecidableEq τ] {c d : Condition τ} {t : τ} {a : Lock.Action τ}

theorem lock_eq_next (h : c.step (.lock a) = .next d) :
    (c.pc a.thread).permits a = true ∧ ∃ l, c.lock.step a = .next l ∧ d = { c with lock := l } := by
  by_cases ha : (c.pc a.thread).permits a = true
  · simp only [step, ha, if_true] at h
    cases hl : c.lock.step a with
    | next l =>
      rw [hl] at h
      cases h
      exact ⟨ha, l, rfl, rfl⟩
    | disabled | fault =>
      rw [hl] at h
      cases h
  · cases (if_neg ha : c.step (.lock a) = _).symm.trans h

/-- A step that moves one thread and leaves the lock as it is. -/
theorem others_of_update {p : CondPc} (hpc : d.pc = update c.pc t p) (hlock : d.lock = c.lock) (u : τ)
    (hu : u ≠ t) : d.pc u = c.pc u ∧ d.lock.pc u = c.lock.pc u := by
  rw [hpc, hlock, update_of_ne hu]
  exact ⟨rfl, rfl⟩

theorem wait_eq_next (h : c.step (.wait t) = .next d) :
    d.lock = c.lock ∧ d.pc = update c.pc t (.waiting c.next) ∧ d.released = c.released := by
  by_cases ht : c.pc t = .outside ∧ c.lock.pc t = .holding
  · rw [show c.step (.wait t) = c.condWait t from if_pos ht, condWait] at h
    split at h <;> cases h
    exact ⟨rfl, rfl, rfl⟩
  · cases (if_neg ht : c.step (.wait t) = _).symm.trans h

theorem down_eq_next (h : c.step (.down t) = .next d) :
    d.lock = c.lock ∧ d.waiters = c.waiters ∧ d.released = c.released ∧ c.lock.pc t = .outside ∧
      ∃ r, c.pc t = .waiting r ∧ (d.pc = c.pc ∨ d.pc = update c.pc t (.relocking r)) := by
  cases ht : c.pc t with
  | waiting r =>
    simp only [step, ht] at h
    split at h
    · rename_i hl
      obtain ⟨u, -, hu⟩ := Cell.access_eq_next h
      split at hu
      · cases hu
      · cases hu
        refine ⟨rfl, rfl, rfl, hl, r, rfl, ?_⟩
        simp only [move]
        split
        · exact .inr rfl
        · exact .inl (by rw [← ht, update_eq_self])
    · cases h
  | _ =>
    simp only [step, ht] at h
    cases h

theorem return_eq_next (h : c.step (.return t) = .next d) :
    d.lock = c.lock ∧ d.waiters = c.waiters ∧ d.released = c.released ∧ c.lock.pc t = .holding ∧
      d.pc = update c.pc t .outside ∧ ∃ r, c.pc t = .relocking r := by
  cases ht : c.pc t with
  | relocking r =>
    simp only [step, ht] at h
    split at h
    · rename_i hl
      cases h
      exact ⟨rfl, rfl, rfl, hl, rfl, r, rfl⟩
    · cases h
  | _ =>
    simp only [step, ht] at h
    cases h

/-- There is nobody to signal, or the first record is taken off. -/
theorem signal_eq_next (h : c.step (.signal t) = .next d) :
    d.lock = c.lock ∧ d.released = c.released ∧ c.lock.pc t = .holding ∧
      (c.waiters = [] ∧ d.waiters = [] ∧ d.pc = c.pc ∨
        c.waiters ≠ [] ∧ ∃ queued r, d.pc = update c.pc t (.signalling queued r)) := by
  by_cases ht : c.pc t = .outside ∧ c.lock.pc t = .holding
  · rw [show c.step (.signal t) = c.condSignal t from if_pos ht, condSignal] at h
    split at h
    · cases hw : c.waiters with
      | nil =>
        rw [hw] at h
        cases h
        exact ⟨rfl, rfl, ht.2, .inl ⟨rfl, rfl, rfl⟩⟩
      | cons r rest =>
        rw [hw] at h
        obtain ⟨u, -, hu⟩ := Cell.access_eq_next h
        cases hu
        exact ⟨rfl, rfl, ht.2, .inr ⟨List.cons_ne_nil _ _, _, _, rfl⟩⟩
    · cases h
  · cases (if_neg ht : c.step (.signal t) = _).symm.trans h

variable {r : ℕ}

theorem up_eq_next {queued : List ℕ} (ht : c.pc t = .signalling queued r) (h : c.step (.up t) = .next d) :
    d.lock = c.lock ∧ d.waiters = c.waiters ∧ d.released = c.released ++ [r] ∧ d.pc = update c.pc t .outside := by
  simp only [step, ht] at h
  obtain ⟨u, -, hu⟩ := Cell.access_eq_next h
  split at hu <;> cases hu
  exact ⟨rfl, rfl, rfl, rfl⟩

end Condition

/-! ### The model -/

/-- Where a thread is in the functions of a list. -/
inductive SlPc (α : Type) where
  /-- In none of them. -/
  | outside
  /-- In `sl_append`, up to `list_push_back`. -/
  | appending (item : α)
  /-- In `sl_append`, at `cond_signal`. -/
  | pushed
  /-- In `sl_append`, in `cond_signal` or after it. -/
  | signalling
  /-- In `sl_remove`, up to the test of the loop. -/
  | removing
  /-- In `sl_remove`, at `cond_wait`. -/
  | wait
  /-- In `sl_remove`, in `cond_wait`. -/
  | waiting
  /-- In `sl_remove`, at `list_pop_front`. -/
  | popping
  /-- In `sl_remove`, after it. -/
  | popped (item : α)
  deriving DecidableEq

/-- `struct SynchList`, with the threads that use it. -/
structure SynchList (τ α : Type) where
  slList : List α
  /-- `sl_empty`, with `sl_lock`. -/
  slEmpty : Condition τ
  pc : τ → SlPc α
  appended : List α
  removed : List α

/-- The thread that acts. -/
def Condition.Action.thread {τ : Type} : Condition.Action τ → τ
  | .lock a => a.thread
  | .wait t | .down t | .return t | .signal t | .broadcast t | .test t | .up t => t

namespace SlPc

variable {τ α : Type}

/-- The steps in the functions of the lock and the condition variable that a thread takes at a
point. -/
def permits : SlPc α → Condition.Action τ → Bool
  | .appending _, .lock a | .removing, .lock a => a.enters
  | .pushed, .signal _ => true
  | .signalling, .up _ => true
  | .signalling, .lock a | .popped _, .lock a => a.leaves
  | .wait, .wait _ => true
  | .waiting, .lock a => a.enters || a.leaves
  | .waiting, .down _ | .waiting, .return _ => true
  | _, _ => false

/-- The point after such a step. -/
def after : SlPc α → Condition.Action τ → SlPc α
  | .pushed, .signal _ => .signalling
  | .wait, .wait _ => .waiting
  | .waiting, .return _ => .removing
  | p, _ => p

end SlPc

namespace SynchList

variable {τ α : Type}

def slInit : SynchList τ α where
  slList := []
  slEmpty := .condInit
  pc _ := .outside
  appended := []
  removed := []

/-- What a thread does next. -/
inductive Action (τ α : Type) where
  /-- Enter `sl_append`. -/
  | append (t : τ) (item : α)
  /-- Enter `sl_remove`. -/
  | remove (t : τ)
  /-- A step in the functions of the lock and the condition variable. -/
  | cond (a : Condition.Action τ)
  /-- `list_push_back`. -/
  | push (t : τ)
  /-- The test of the loop. -/
  | test (t : τ)
  /-- `list_pop_front`. -/
  | pop (t : τ)
  | return (t : τ)
  deriving DecidableEq

/-- Thread `t` goes to a point. -/
def move [DecidableEq τ] (s : SynchList τ α) (t : τ) (pc : SlPc α) : SynchList τ α :=
  { s with pc := update s.pc t pc }

/-- The code from one point to the next. -/
def step [DecidableEq τ] (s : SynchList τ α) : Action τ α → Outcome (SynchList τ α)
  | .append t item =>
    match s.pc t with
    | .outside => .next (s.move t (.appending item))
    | _ => .disabled
  | .remove t =>
    match s.pc t with
    | .outside => .next (s.move t .removing)
    | _ => .disabled
  | .cond a =>
    if (s.pc a.thread).permits a then
      match s.slEmpty.step a with
      | .next c => .next ({ s with slEmpty := c }.move a.thread ((s.pc a.thread).after a))
      | .disabled => .disabled
      | .fault => .fault
    else .disabled
  | .push t =>
    match s.pc t with
    | .appending item =>
      if s.slEmpty.lock.pc t = .holding then
        .next ({ s with slList := s.slList ++ [item], appended := s.appended ++ [item] }.move t .pushed)
      else .disabled
    | _ => .disabled
  | .test t =>
    match s.pc t with
    | .removing =>
      if s.slEmpty.lock.pc t = .holding then .next (s.move t (if s.slList.isEmpty then .wait else .popping))
      else .disabled
    | _ => .disabled
  | .pop t =>
    match s.pc t with
    | .popping =>
      match s.slList with
      | [] => .fault
      | item :: rest =>
        .next ({ s with slList := rest, removed := s.removed ++ [item] }.move t (.popped item))
    | _ => .disabled
  | .return t =>
    match s.pc t with
    | .signalling | .popped _ => if s.slEmpty.lock.pc t = .outside then .next (s.move t .outside) else .disabled
    | _ => .disabled

/-- The runs of a list. -/
def system [DecidableEq τ] : System (SynchList τ α) (Action τ α) where
  init s := s = slInit
  step := step

/-! ### The invariant -/

/-- A thread in `cond_wait` that was signalled, and does not have the lock again yet. -/
def Signalled (s : SynchList τ α) (t : τ) : Prop :=
  (∃ r, s.slEmpty.pc t = .waiting r ∧ r ∈ s.slEmpty.released) ∨
    (∃ r, s.slEmpty.pc t = .relocking r) ∧ (s.slEmpty.lock.pc t).owns = false

/-- A thread that has the lock is going to signal, or to look at the list. -/
def credit : SlPc α → CondPc → Bool
  | .pushed, _ | .removing, _ | .popping, _ => true
  | .signalling, p => p.signals
  | .waiting, .relocking _ => true
  | _, _ => false

/-- The thread with the lock accounts for one item. -/
def Credited (s : SynchList τ α) (t : τ) : Prop :=
  (s.slEmpty.lock.pc t).owns = true ∧ credit (s.pc t) (s.slEmpty.pc t) = true

/-- While threads are queued, every item is accounted for. -/
def Signals (s : SynchList τ α) : Prop :=
  ∃ F : Finset τ, (∀ t, t ∈ F ↔ s.Signalled t) ∧
    (s.slEmpty.waiters ≠ [] →
      s.slList.length ≤ F.card ∨ (∃ t, s.Credited t) ∧ s.slList.length ≤ F.card + 1)

/-- What a thread at a point knows. -/
def Local (s : SynchList τ α) (t : τ) : SlPc α → Prop
  | .outside => s.slEmpty.pc t = .outside ∧ s.slEmpty.lock.pc t = .outside
  | .appending _ | .removing => s.slEmpty.pc t = .outside ∧ (s.slEmpty.lock.pc t).entering = true
  | .pushed => s.slEmpty.pc t = .outside ∧ s.slEmpty.lock.pc t = .holding
  | .signalling => s.slEmpty.pc t = .outside ∧ (s.slEmpty.lock.pc t).leaving = true ∨
      ∃ queued r, s.slEmpty.pc t = .signalling queued r
  | .wait => s.slEmpty.pc t = .outside ∧ s.slEmpty.lock.pc t = .holding ∧ s.slList = []
  | .waiting => ∃ r, s.slEmpty.pc t = .waiting r ∨
      s.slEmpty.pc t = .relocking r ∧ (s.slEmpty.lock.pc t).entering = true
  | .popping => s.slEmpty.pc t = .outside ∧ s.slEmpty.lock.pc t = .holding ∧ s.slList ≠ []
  | .popped _ => s.slEmpty.pc t = .outside ∧ (s.slEmpty.lock.pc t).leaving = true

/-- What holds in every state of every run. -/
structure Inv (s : SynchList τ α) : Prop where
  cond : s.slEmpty.Inv
  threads : ∀ t, s.Local t (s.pc t)
  history : s.appended = s.removed ++ s.slList
  signals : s.Signals

theorem slInit_inv : Inv (slInit : SynchList τ α) where
  cond := Condition.condInit_inv
  threads _ := ⟨rfl, rfl⟩
  history := rfl
  signals := by
    refine ⟨∅, fun t => ?_, fun hw => absurd rfl hw⟩
    simp [Signalled, slInit, Condition.condInit]

section Frame

variable {s s' : SynchList τ α} {t u : τ} {p : SlPc α}

/-- What a thread knows stays true while another thread acts. -/
theorem Local.frame (h : s.Local u p) (hpc : s'.slEmpty.pc u = s.slEmpty.pc u)
    (hlock : s'.slEmpty.lock.pc u = s.slEmpty.lock.pc u)
    (hlist : s.slEmpty.lock.pc u = .holding → s'.slList = s.slList) : s'.Local u p := by
  cases p with
  | wait => exact ⟨hpc.trans h.1, hlock.trans h.2.1, (hlist h.2.1).trans h.2.2⟩
  | popping => exact ⟨hpc.trans h.1, hlock.trans h.2.1, (hlist h.2.1).symm ▸ h.2.2⟩
  | _ =>
    simp only [Local, hpc, hlock] at h ⊢
    exact h

/-- Whether a thread was signalled depends on itself and the released records. -/
theorem signalled_congr (hpc : s'.slEmpty.pc u = s.slEmpty.pc u) (hlock : s'.slEmpty.lock.pc u = s.slEmpty.lock.pc u)
    (hrel : s'.slEmpty.released = s.slEmpty.released) : s'.Signalled u ↔ s.Signalled u := by
  simp only [Signalled, hpc, hlock, hrel]

theorem Inv.credited_eq (h : Inv s) (ht : (s.slEmpty.lock.pc t).owns = true) (hu : s.Credited u) : u = t :=
  ((h.cond.lock.ownedBy ht).owns u).mp hu.1

/-- A thread that is not signalled, and accounts for no item, changes nothing in the account. -/
theorem Signals.frame (h : s.Signals) (hsig : ∀ u, s'.Signalled u ↔ s.Signalled u)
    (hw : s'.slEmpty.waiters ≠ [] → s.slEmpty.waiters ≠ []) (hlen : s'.slList.length ≤ s.slList.length)
    (hcredit : ∀ u, s.Credited u → (∃ v, s'.Credited v) ∨ s'.slList.length < s.slList.length ∨ s'.slList = []) :
    s'.Signals := by
  obtain ⟨F, hF, hle⟩ := h
  refine ⟨F, fun u => (hF u).trans (hsig u).symm, fun hw' => ?_⟩
  rcases hle (hw hw') with hle | ⟨⟨u, hu⟩, hle⟩
  · exact .inl (hlen.trans hle)
  · rcases hcredit u hu with hv | hlt | hnil
    · exact .inr ⟨hv, hlen.trans hle⟩
    · exact .inl (by omega)
    · exact .inl (by simp [hnil])

variable [DecidableEq τ]

@[simp] theorem move_pc_self : (s.move t p).pc t = p := update_self ..

theorem move_pc_of_ne (h : u ≠ t) : (s.move t p).pc u = s.pc u := update_of_ne h ..

/-- Another thread still accounts for its item. -/
theorem Credited.move (h : s.Credited u) (hu : u ≠ t) : (s.move t p).Credited u := by
  refine ⟨h.1, ?_⟩
  rw [move_pc_of_ne hu]
  exact h.2

end Frame

/-! ### Steps -/

section Steps

variable [DecidableEq τ] {s s₁ : SynchList τ α} {t : τ} {p : SlPc α}

section

variable (h : Inv s)
include h

theorem Inv.move (hempty : s₁.slEmpty = s.slEmpty) (hpc : s₁.pc = s.pc)
    (hlist : s₁.slList = s.slList ∨ s.slEmpty.lock.pc t = .holding) (hlocal : s₁.Local t p)
    (hhistory : s₁.appended = s₁.removed ++ s₁.slList) (hsignals : (s₁.move t p).Signals) : Inv (s₁.move t p) where
  cond := hempty.symm ▸ h.cond
  threads := by
    refine (forall_update_iff _ (Local _)).mpr ⟨Local.frame hlocal rfl rfl fun _ => rfl, fun u hu => ?_⟩
    rw [hpc]
    refine (h.threads u).frame ?_ ?_ fun hl => ?_
    · exact congrArg (fun c => c.pc u) hempty
    · exact congrArg (fun c => c.lock.pc u) hempty
    · exact hlist.resolve_right fun ht => hu (h.cond.holder_unique hl ht)
  history := hhistory
  signals := hsignals

theorem Inv.move_outside (hl : s.slEmpty.lock.pc t = .outside) (hlocal : s.Local t p) : Inv (s.move t p) := by
  refine h.move rfl rfl (.inl rfl) hlocal h.history ?_
  refine h.signals.frame (fun _ => Iff.rfl) id le_rfl fun u hu => .inl ⟨u, hu.move ?_⟩
  rintro rfl
  have howns := hu.1
  rw [hl] at howns
  cases howns

theorem Inv.push {item : α} (ht : s.pc t = .appending item) (hl : s.slEmpty.lock.pc t = .holding) :
    Inv ({ s with slList := s.slList ++ [item], appended := s.appended ++ [item] }.move t .pushed) := by
  have hloc := h.threads t
  rw [ht] at hloc
  refine h.move rfl rfl (.inr hl) ⟨hloc.1, hl⟩ ?_ ?_
  · rw [h.history, List.append_assoc]
  · obtain ⟨F, hF, hle⟩ := h.signals
    refine ⟨F, hF, fun hw => .inr ⟨⟨t, ?_, ?_⟩, ?_⟩⟩
    · exact congrArg LockPc.owns hl
    · rw [move_pc_self]
      rfl
    · rcases hle hw with hle | ⟨⟨u, hu⟩, -⟩
      · simpa [SynchList.move] using hle
      · obtain rfl := h.credited_eq (congrArg LockPc.owns hl) hu
        have hcr := hu.2
        rw [ht] at hcr
        cases hcr

theorem Inv.test (ht : s.pc t = .removing) (hl : s.slEmpty.lock.pc t = .holding) :
    Inv (s.move t (if s.slList.isEmpty then .wait else .popping)) := by
  have hloc := h.threads t
  rw [ht] at hloc
  cases hempty : s.slList.isEmpty with
  | true =>
    have hnil := List.isEmpty_iff.mp hempty
    refine h.move rfl rfl (.inl rfl) ⟨hloc.1, hl, hnil⟩ h.history ?_
    exact h.signals.frame (fun _ => Iff.rfl) id le_rfl fun u _ => .inr (.inr hnil)
  | false =>
    have hne : s.slList ≠ [] := fun hnil => by
      rw [hnil] at hempty
      cases hempty
    refine h.move rfl rfl (.inl rfl) ⟨hloc.1, hl, hne⟩ h.history ?_
    refine h.signals.frame (fun _ => Iff.rfl) id le_rfl fun u _ => .inl ⟨t, congrArg LockPc.owns hl, ?_⟩
    simp [credit]

theorem Inv.pop (ht : s.pc t = .popping) {item : α} {rest : List α} (hlist : s.slList = item :: rest) :
    Inv ({ s with slList := rest, removed := s.removed ++ [item] }.move t (.popped item)) := by
  have hloc := h.threads t
  rw [ht] at hloc
  refine h.move rfl rfl (.inr hloc.2.1) ⟨hloc.1, ?_⟩ ?_ ?_
  · exact congrArg LockPc.leaving hloc.2.1
  · rw [h.history, hlist, List.append_assoc]
    rfl
  · have hlen : rest.length < s.slList.length := by simp [hlist]
    exact h.signals.frame (fun _ => Iff.rfl) id hlen.le fun u _ => .inr (.inl hlen)

theorem Inv.lock_signals {l : Lock τ} (hl : s.slEmpty.lock.step a = .next l) (hinv : l.Inv)
    (hrelock : ∀ r, s.slEmpty.pc a.thread = .relocking r → a.enters = true ∧ s.pc a.thread = .waiting)
    (hcredit : a.enters = true ∨ credit (s.pc a.thread) (s.slEmpty.pc a.thread) = false) :
    Signals { s with slEmpty := { s.slEmpty with lock := l } } := by
  have hsame : ∀ u, u ≠ a.thread → l.pc u = s.slEmpty.lock.pc u := fun u hu => Lock.step_pc_of_ne hl hu
  have hcr : ∀ u, s.Credited u → Credited { s with slEmpty := { s.slEmpty with lock := l } } u := by
    rintro u ⟨howns, hcr⟩
    refine ⟨?_, hcr⟩
    obtain rfl | hu := eq_or_ne u a.thread
    · rcases hcredit with ha | hno
      · exact (Lock.step_entering hl ha).2 howns
      · cases hno.symm.trans hcr
    · rw [← howns]
      exact congrArg LockPc.owns (hsame u hu)
  have hsig : ∀ u, u ≠ a.thread → (Signalled { s with slEmpty := { s.slEmpty with lock := l } } u ↔ s.Signalled u) :=
    fun u hu => signalled_congr rfl (hsame u hu) rfl
  by_cases hrel : ∃ r, s.slEmpty.pc a.thread = .relocking r
  · obtain ⟨r, hr⟩ := hrel
    obtain ⟨ha, hpc⟩ := hrelock r hr
    by_cases hgain : (s.slEmpty.lock.pc a.thread).owns = false ∧ (l.pc a.thread).owns = true
    · obtain ⟨F, hF, hle⟩ := h.signals
      have hmem : a.thread ∈ F := (hF _).mpr (.inr ⟨⟨r, hr⟩, hgain.1⟩)
      have hcard := Finset.card_erase_add_one hmem
      refine ⟨F.erase a.thread, fun u => ?_, fun hw => .inr ⟨⟨a.thread, hgain.2, ?_⟩, ?_⟩⟩
      · rw [Finset.mem_erase, hF]
        obtain rfl | hu := eq_or_ne u a.thread
        · simp [Signalled, hr, hgain.2]
        · simp only [ne_eq, hu, not_false_eq_true, true_and]
          exact (hsig u hu).symm
      · rw [hpc, hr]
        rfl
      · rcases hle hw with hle | ⟨⟨u, hu⟩, -⟩
        · rwa [hcard]
        · have hut := ((hinv.ownedBy hgain.2).owns u).mp (hcr u hu).1
          rw [hut] at hu
          cases hgain.1.symm.trans hu.1
    · have howns : (l.pc a.thread).owns = (s.slEmpty.lock.pc a.thread).owns := by
        have hmono := (Lock.step_entering hl ha).2
        cases hb : (s.slEmpty.lock.pc a.thread).owns with
        | false =>
          rw [hb] at hgain
          simpa using hgain
        | true => exact hmono hb
      refine h.signals.frame (fun u => ?_) id le_rfl fun u hu => .inl ⟨u, hcr u hu⟩
      obtain rfl | hu := eq_or_ne u a.thread
      · simp only [Signalled, howns]
      · exact hsig u hu
  · refine h.signals.frame (fun u => ?_) id le_rfl fun u hu => .inl ⟨u, hcr u hu⟩
    obtain rfl | hu := eq_or_ne u a.thread
    · simp only [Signalled, hrel, false_and, or_false]
    · exact hsig u hu

end

variable {d : Condition τ}

theorem Inv.cond_move (h : Inv s) (hd : d.Inv)
    (hothers : ∀ u, u ≠ t → d.pc u = s.slEmpty.pc u ∧ d.lock.pc u = s.slEmpty.lock.pc u)
    (hlocal : Local { s with slEmpty := d } t p) (hsignals : Signals ({ s with slEmpty := d }.move t p)) :
    Inv ({ s with slEmpty := d }.move t p) where
  cond := hd
  threads := (forall_update_iff _ (Local _)).mpr ⟨Local.frame hlocal rfl rfl fun _ => rfl, fun u hu =>
    (h.threads u).frame (hothers u hu).1 (hothers u hu).2 fun _ => rfl⟩
  history := h.history
  signals := hsignals

omit [DecidableEq τ] in
/-- A thread in `cond_wait` that was signalled only takes steps of `lock_acquire`. -/
theorem enters_of_permits (h : (CondPc.relocking r).permits a = true) : a.enters = true := by
  cases a <;> first | rfl | cases h

theorem Inv.lock_local (h : Inv s) (ha : (s.pc a.thread).permits (.lock a) = true)
    (hperm : (s.slEmpty.pc a.thread).permits a = true) {l : Lock τ} (hl : s.slEmpty.lock.step a = .next l) :
    Local { s with slEmpty := { s.slEmpty with lock := l } } a.thread (s.pc a.thread) := by
  have hloc := h.threads a.thread
  cases hpc : s.pc a.thread with
  | appending _ | removing =>
    rw [hpc] at ha hloc
    exact ⟨hloc.1, (Lock.step_entering hl ha).1⟩
  | signalling =>
    rw [hpc] at ha hloc
    rcases hloc with ⟨hout, -⟩ | ⟨queued, r, hsig⟩
    · exact .inl ⟨hout, Lock.step_leaving hl ha⟩
    · rw [hsig] at hperm
      cases hperm
  | waiting =>
    rw [hpc] at hloc
    obtain ⟨r, hw | ⟨hrel, -⟩⟩ := hloc
    · exact ⟨r, .inl hw⟩
    · rw [hrel] at hperm
      exact ⟨r, .inr ⟨hrel, (Lock.step_entering hl (enters_of_permits hperm)).1⟩⟩
  | popped item =>
    rw [hpc] at ha hloc
    exact ⟨hloc.1, Lock.step_leaving hl ha⟩
  | _ =>
    rw [hpc] at ha
    cases ha

omit [DecidableEq τ] in
theorem Inv.lock_credit (h : Inv s) (ha : (s.pc a.thread).permits (.lock a) = true)
    (hperm : (s.slEmpty.pc a.thread).permits a = true) :
    a.enters = true ∨ credit (s.pc a.thread) (s.slEmpty.pc a.thread) = false := by
  have hloc := h.threads a.thread
  cases hpc : s.pc a.thread with
  | appending _ | removing =>
    rw [hpc] at ha
    exact .inl ha
  | signalling =>
    rw [hpc] at hloc
    rcases hloc with ⟨hout, -⟩ | ⟨queued, r, hsig⟩
    · rw [hout]
      exact .inr rfl
    · rw [hsig] at hperm
      cases hperm
  | waiting =>
    rw [hpc] at hloc
    obtain ⟨r, hw | ⟨hrel, -⟩⟩ := hloc
    · rw [hw]
      exact .inr rfl
    · rw [hrel] at hperm
      exact .inl (enters_of_permits hperm)
  | popped item => exact .inr rfl
  | _ =>
    rw [hpc] at ha
    cases ha

omit [DecidableEq τ] in
/-- Only a thread in `cond_wait` takes the lock again. -/
theorem Inv.relocking_waiting (h : Inv s) (hr : s.slEmpty.pc t = .relocking r) : s.pc t = .waiting := by
  have hloc := h.threads t
  cases hpc : s.pc t with
  | waiting => rfl
  | signalling =>
    rw [hpc] at hloc
    rcases hloc with ⟨hout, -⟩ | ⟨queued, q, hsig⟩
    · cases hout.symm.trans hr
    · cases hsig.symm.trans hr
  | _ =>
    rw [hpc] at hloc
    cases hloc.1.symm.trans hr

theorem Inv.cond_lock (h : Inv s) (ha : (s.pc a.thread).permits (.lock a) = true)
    (hd : d.Inv) (hstep : s.slEmpty.step (.lock a) = .next d) :
    Inv ({ s with slEmpty := d }.move a.thread ((s.pc a.thread).after (.lock a))) := by
  obtain ⟨hperm, l, hl, rfl⟩ := Condition.lock_eq_next hstep
  have hafter : (s.pc a.thread).after (.lock a) = s.pc a.thread := by cases s.pc a.thread <;> rfl
  have hself : ({ s with slEmpty := { s.slEmpty with lock := l } } : SynchList τ α).move a.thread (s.pc a.thread) =
      { s with slEmpty := { s.slEmpty with lock := l } } := by
    simp only [SynchList.move, update_eq_self]
  rw [hafter]
  refine h.cond_move hd (fun u hu => ⟨rfl, Lock.step_pc_of_ne hl hu⟩) (h.lock_local ha hperm hl) ?_
  rw [hself]
  refine h.lock_signals hl hd.lock (fun r hr => ⟨?_, h.relocking_waiting hr⟩) (h.lock_credit ha hperm)
  rw [hr] at hperm
  exact enters_of_permits hperm

theorem Inv.cond_wait (h : Inv s) (ht : s.pc t = .wait) (hd : d.Inv)
    (hstep : s.slEmpty.step (.wait t) = .next d) : Inv ({ s with slEmpty := d }.move t .waiting) := by
  obtain ⟨hlock, hpc, hrel⟩ := Condition.wait_eq_next hstep
  have hloc := h.threads t
  rw [ht] at hloc
  have hothers := Condition.others_of_update hpc hlock
  have hself : d.pc t = .waiting s.slEmpty.next := by rw [hpc, update_self]
  refine h.cond_move hd hothers ⟨_, .inl hself⟩ ?_
  obtain ⟨F, hF, -⟩ := h.signals
  refine ⟨F, fun u => (hF u).trans ?_, fun _ => .inl ?_⟩
  · obtain rfl | hu := eq_or_ne u t
    · have hnew : s.slEmpty.next ∉ s.slEmpty.released := fun hm => lt_irrefl _ (h.cond.popped _ (h.cond.released _ hm))
      simp [Signalled, SynchList.move, hself, hloc.1, hrel, hnew]
    · simp only [Signalled, SynchList.move, (hothers u hu).1, (hothers u hu).2, hrel]
  · rw [hloc.2.2]
    exact Nat.zero_le _

theorem Inv.cond_down (h : Inv s) (ht : s.pc t = .waiting) (hd : d.Inv)
    (hstep : s.slEmpty.step (.down t) = .next d) : Inv ({ s with slEmpty := d }.move t .waiting) := by
  obtain ⟨hlock, hw, hrel, hout, r, hr, hpc⟩ := Condition.down_eq_next hstep
  have hothers : ∀ u, u ≠ t → d.pc u = s.slEmpty.pc u ∧ d.lock.pc u = s.slEmpty.lock.pc u := fun u hu => by
    rcases hpc with hpc | hpc
    · exact ⟨by rw [hpc], by rw [hlock]⟩
    · exact Condition.others_of_update hpc hlock u hu
  have hsig : ∀ u, Signalled ({ s with slEmpty := d }.move t .waiting) u ↔ s.Signalled u := fun u => by
    obtain rfl | hu := eq_or_ne u t
    · rcases hpc with hpc | hpc
      · exact signalled_congr (congrFun hpc u) (by rw [← hlock]; rfl) hrel
      · have hself : d.pc u = .relocking r := by rw [hpc, update_self]
        have hlocal := hd.threads u
        rw [hself] at hlocal
        have hmem : r ∈ s.slEmpty.released := hrel ▸ hlocal.2.2
        refine iff_of_true (.inr ⟨⟨r, hself⟩, ?_⟩) (.inl ⟨r, hr, hmem⟩)
        show (d.lock.pc u).owns = false
        rw [hlock, hout]
        rfl
    · exact signalled_congr (hothers u hu).1 (hothers u hu).2 hrel
  refine h.cond_move hd hothers ?_ (h.signals.frame hsig (fun hw' => hw ▸ hw') le_rfl fun u hu => .inl ⟨u, ?_⟩)
  · rcases hpc with hpc | hpc
    · exact ⟨r, .inl ((congrFun hpc t).trans hr)⟩
    · refine ⟨r, .inr ⟨?_, ?_⟩⟩
      · rw [hpc, update_self]
      · rw [hlock, hout]
        rfl
  · have hut : u ≠ t := by
      rintro rfl
      have howns := hu.1
      rw [hout] at howns
      cases howns
    refine Credited.move ⟨?_, ?_⟩ hut
    · rw [(hothers u hut).2]
      exact hu.1
    · rw [(hothers u hut).1]
      exact hu.2

theorem Inv.cond_return (h : Inv s) (hd : d.Inv) (hstep : s.slEmpty.step (.return t) = .next d) :
    Inv ({ s with slEmpty := d }.move t .removing) := by
  obtain ⟨hlock, hw, hrel, hl, hpc, r, hr⟩ := Condition.return_eq_next hstep
  have hothers := Condition.others_of_update hpc hlock
  have hself : d.pc t = .outside := by rw [hpc, update_self]
  have hl' : d.lock.pc t = .holding := by rw [hlock, hl]
  refine h.cond_move hd hothers ⟨hself, congrArg LockPc.entering hl'⟩ ?_
  refine h.signals.frame (fun u => ?_) (fun hw' => hw ▸ hw') le_rfl fun u hu => .inl ⟨t, congrArg LockPc.owns hl', ?_⟩
  · obtain rfl | hu := eq_or_ne u t
    · simp [Signalled, SynchList.move, hself, hr, hl, LockPc.owns]
    · exact signalled_congr (hothers u hu).1 (hothers u hu).2 hrel
  · rw [move_pc_self]
    rfl

theorem Inv.cond_signal (h : Inv s) (ht : s.pc t = .pushed) (hd : d.Inv)
    (hstep : s.slEmpty.step (.signal t) = .next d) : Inv ({ s with slEmpty := d }.move t .signalling) := by
  obtain ⟨hlock, hrel, hl, hcase⟩ := Condition.signal_eq_next hstep
  have hloc := h.threads t
  rw [ht] at hloc
  have hl' : d.lock.pc t = .holding := by rw [hlock, hl]
  rcases hcase with ⟨-, hw, hpc⟩ | ⟨hw, queued, r, hpc⟩
  · refine h.cond_move hd (fun u _ => ⟨by rw [hpc], by rw [hlock]⟩) (.inl ⟨(congrFun hpc t).trans hloc.1, ?_⟩) ?_
    · exact congrArg LockPc.leaving hl'
    · obtain ⟨F, hF, -⟩ := h.signals
      refine ⟨F, fun u => (hF u).trans (Iff.symm ?_), fun hw' => absurd hw hw'⟩
      exact signalled_congr (congrFun hpc u) (by rw [← hlock]; rfl) hrel
  · have hothers := Condition.others_of_update hpc hlock
    have hself : d.pc t = .signalling queued r := by rw [hpc, update_self]
    refine h.cond_move hd hothers (.inr ⟨queued, r, hself⟩) ?_
    refine h.signals.frame (fun u => ?_) (fun _ => hw) le_rfl fun u hu => .inl ⟨t, congrArg LockPc.owns hl', ?_⟩
    · obtain rfl | hu := eq_or_ne u t
      · simp [Signalled, SynchList.move, hself, hloc.1]
      · exact signalled_congr (hothers u hu).1 (hothers u hu).2 hrel
    · rw [move_pc_self]
      show credit .signalling (d.pc t) = true
      rw [hself]
      rfl

/-- The `sema_up` of `cond_signal`: the thread that queued the record is signalled. -/
theorem Inv.cond_up (h : Inv s) (ht : s.pc t = .signalling) (hd : d.Inv)
    (hstep : s.slEmpty.step (.up t) = .next d) : Inv ({ s with slEmpty := d }.move t .signalling) := by
  have hloc := h.threads t
  rw [ht] at hloc
  obtain ⟨queued, r, hr⟩ : ∃ queued r, s.slEmpty.pc t = .signalling queued r := by
    rcases hloc with ⟨hout, -⟩ | hsig
    · simp only [Condition.step, hout] at hstep
      cases hstep
    · exact hsig
  obtain ⟨hlock, hw, hrel, hpc⟩ := Condition.up_eq_next hr hstep
  have hcond := h.cond.threads t
  rw [hr] at hcond
  obtain ⟨hl, -, -, hnew, w, hwait⟩ := hcond
  have hothers := Condition.others_of_update hpc hlock
  have hself : d.pc t = .outside := by rw [hpc, update_self]
  have hl' : d.lock.pc t = .holding := by rw [hlock, hl]
  refine h.cond_move hd hothers (.inl ⟨hself, congrArg LockPc.leaving hl'⟩) ?_
  obtain ⟨F, hF, hle⟩ := h.signals
  have hwF : w ∉ F := by
    rw [hF]
    simp [Signalled, hwait, hnew]
  refine ⟨insert w F, fun u => ?_, fun hw' => .inl ?_⟩
  · rw [Finset.mem_insert, hF]
    obtain rfl | hu := eq_or_ne u t
    · have huw : u ≠ w := fun he => by
        rw [← he, hr] at hwait
        cases hwait
      simp [Signalled, SynchList.move, hself, hr, huw]
    · obtain rfl | huw := eq_or_ne u w
      · simp [Signalled, SynchList.move, (hothers u hu).1, hwait, hrel]
      · have hne : s.slEmpty.pc u ≠ .waiting r := fun he =>
          huw (h.cond.owner_unique (by rw [he]; rfl) (by rw [hwait]; rfl))
        simp only [Signalled, SynchList.move, (hothers u hu).1, (hothers u hu).2, hrel, huw, false_or, List.mem_append,
          List.mem_singleton]
        apply or_congr_left
        constructor
        · rintro ⟨q, hq, hm⟩
          exact ⟨q, hq, .inl hm⟩
        · rintro ⟨q, hq, hm | rfl⟩
          · exact ⟨q, hq, hm⟩
          · exact absurd hq hne
  · rw [Finset.card_insert_of_notMem hwF]
    rcases hle (hw ▸ hw') with hle | ⟨-, hle⟩
    · exact Nat.le_succ_of_le hle
    · exact hle

omit [DecidableEq τ] in
/-- Where a thread calls a function of the condition variable. -/
theorem SlPc.of_permits {a : Condition.Action τ} (h : p.permits a = true) :
    match a with
    | .lock _ => True
    | .wait _ => p = .wait
    | .down _ | .return _ => p = .waiting
    | .signal _ => p = .pushed
    | .up _ => p = .signalling
    | .broadcast _ | .test _ => False := by
  cases a <;> cases p <;> trivial

theorem Inv.cond_step (h : Inv s) {a : Condition.Action τ} (ha : (s.pc a.thread).permits a = true)
    (hd : d.Inv) (hstep : s.slEmpty.step a = .next d) :
    Inv ({ s with slEmpty := d }.move a.thread ((s.pc a.thread).after a)) := by
  have hpc := SlPc.of_permits ha
  cases a with
  | lock a => exact h.cond_lock ha hd hstep
  | wait t =>
    rw [hpc]
    exact h.cond_wait hpc hd hstep
  | down t =>
    rw [hpc]
    exact h.cond_down hpc hd hstep
  | «return» t =>
    rw [hpc]
    exact h.cond_return hd hstep
  | signal t =>
    rw [hpc]
    exact h.cond_signal hpc hd hstep
  | up t =>
    rw [hpc]
    exact h.cond_up hpc hd hstep
  | broadcast _ | test _ => exact hpc.elim

/-- **Every step keeps the invariant**, and none faults. -/
theorem Inv.step (h : Inv s) (a : Action τ α) : (s.step a).Safe Inv := by
  cases a with
  | append t _ | remove t =>
    have hloc := h.threads t
    simp only [SynchList.step]
    cases ht : s.pc t with
    | outside =>
      rw [ht] at hloc
      exact h.move_outside hloc.2 ⟨hloc.1, congrArg LockPc.entering hloc.2⟩
    | _ => trivial
  | cond a =>
    refine .ite fun ha => ?_
    have hstep := h.cond.step a
    cases hd : s.slEmpty.step a with
    | next d => exact h.cond_step ha (hstep.of_next hd) hd
    | disabled => trivial
    | fault => exact hstep.ne_fault hd
  | push t =>
    simp only [SynchList.step]
    cases ht : s.pc t with
    | appending item => exact .ite fun hl => h.push ht hl
    | _ => trivial
  | test t =>
    simp only [SynchList.step]
    cases ht : s.pc t with
    | removing => exact .ite fun hl => h.test ht hl
    | _ => trivial
  | pop t =>
    have hloc := h.threads t
    simp only [SynchList.step]
    cases ht : s.pc t with
    | popping =>
      rw [ht] at hloc
      cases hlist : s.slList with
      | nil => exact absurd hlist hloc.2.2
      | cons item rest => exact h.pop ht hlist
    | _ => trivial
  | «return» t =>
    have hloc := h.threads t
    by_cases hl : s.slEmpty.lock.pc t = .outside
    · cases ht : s.pc t with
      | signalling =>
        rw [ht] at hloc
        rcases hloc with ⟨hout, -⟩ | ⟨queued, r, hr⟩
        · simp only [SynchList.step, ht, hl, if_true]
          exact h.move_outside hl ⟨hout, hl⟩
        · have hcond := h.cond.threads t
          rw [hr] at hcond
          cases hcond.1.symm.trans hl
      | popped item =>
        rw [ht] at hloc
        simp only [SynchList.step, ht, hl, if_true]
        exact h.move_outside hl ⟨hloc.1, hl⟩
      | _ =>
        simp only [SynchList.step, ht]
        trivial
    · cases ht : s.pc t <;> simp only [SynchList.step, ht, hl, if_false] <;> trivial

end Steps

/-! ### All runs -/

variable [DecidableEq τ] {s : SynchList τ α}

/-- **A synchronized list works**, for any threads in any interleaving. What was removed is the
beginning of what was appended, and the rest is on the list; no assertion fails, and no empty list
is popped. While the lock is free and a thread is queued, there are at most as many items as there
are signalled threads that do not have the lock again. -/
theorem synchList_correct (h : system.Reach s) :
    s.removed <+: s.appended ∧ s.appended = s.removed ++ s.slList ∧ (∀ a, s.step a ≠ .fault) ∧
      (s.slEmpty.lock.semaphore.sema.value ≠ 0 → s.slEmpty.waiters ≠ [] →
        ∃ F : Finset τ, (∀ t, t ∈ F ↔ s.Signalled t) ∧ s.slList.length ≤ F.card) := by
  obtain ⟨hinv, hfault⟩ := h.safe (P := Inv) (fun _ he => he ▸ slInit_inv) fun s a hs => hs.step a
  refine ⟨⟨_, hinv.history.symm⟩, hinv.history, hfault, fun hv hw => ?_⟩
  obtain ⟨F, hF, hle⟩ := hinv.signals
  refine ⟨F, hF, (hle hw).resolve_right ?_⟩
  rintro ⟨⟨t, hown, -⟩, -⟩
  rw [(hinv.cond.lock.free_of_value hv).owns t] at hown
  cases hown

/-- Two threads wait, and the first of them is signalled. -/
theorem synchList_correct_signalled : ∃ (s : SynchList ℕ ℕ) (F : Finset ℕ), s.slList = [7] ∧ s.slEmpty.waiters = [1] ∧
    (∀ t, t ∈ F ↔ s.Signalled t) ∧ s.slList.length ≤ F.card := by
  have hrun : system.replay (slInit : SynchList ℕ ℕ)
    [.remove 1, .cond (.lock (.acquire 1)), .cond (.lock (.down 1)), .cond (.lock (.setHolder 1)), .test 1, .cond (.wait 1),
     .cond (.lock (.release 1)), .cond (.lock (.clearHolder 1)), .cond (.lock (.up 1)),
     .remove 2, .cond (.lock (.acquire 2)), .cond (.lock (.down 2)), .cond (.lock (.setHolder 2)), .test 2, .cond (.wait 2),
     .cond (.lock (.release 2)), .cond (.lock (.clearHolder 2)), .cond (.lock (.up 2)),
     .append 3 7, .cond (.lock (.acquire 3)), .cond (.lock (.down 3)), .cond (.lock (.setHolder 3)), .push 3,
     .cond (.signal 3), .cond (.up 3),
     .cond (.lock (.release 3)), .cond (.lock (.clearHolder 3)), .cond (.lock (.up 3))] = .next _ := rfl
  obtain ⟨F, hF, hle⟩ := (synchList_correct (.replay (.init rfl) hrun)).2.2.2 (by decide) (by decide)
  exact ⟨_, F, rfl, rfl, hF, hle⟩

end SynchList

end Pintos.Threads
