import Mathlib.Data.Fintype.Card
import Pintos.Basis.Transition

/-!
# Readers and writers

The protocol with two semaphores: `mutex` protects the count of the readers, and
`room` is held by one writer or by the readers as a group. The first reader takes
the room for the group and the last one gives it back; both look at the count
while they hold the mutex.

A thread is in one of the phases of `Phase`, and `Step` says what a step of one
thread does. The invariant `Ok` says who holds what: one thread holds the mutex
or nobody does, the count is the number of the readers that have counted
themselves, and one writer or the group of readers has the room or nobody has
it. Every step keeps it (**`Ok.step`**), and it says that a writer is alone
(**`Ok.writer_alone`**).
-/

namespace Pintos.ReadersWriters

open Function

/-- What a thread is doing. -/
inductive Phase where
  /-- It is not reading and not writing. -/
  | outside
  /-- A reader with the mutex, about to look at the count. -/
  | entering
  /-- The first reader, with the mutex, about to take the room. -/
  | first
  /-- A reader with the mutex, the room is the group's, about to count itself. -/
  | counting
  /-- A reader that has counted itself, with the mutex still. -/
  | counted
  /-- A reader in the room. -/
  | reading
  /-- A reader with the mutex again, about to uncount itself. -/
  | uncounting
  /-- A reader that has uncounted itself, about to look at the count. -/
  | leaving
  /-- The last reader, with the mutex, about to give back the room. -/
  | last
  /-- A reader that gives back the mutex. -/
  | left
  /-- A writer in the room. -/
  | writing
  deriving DecidableEq

namespace Phase

/-- It has the mutex. -/
def hasMutex : Phase → Bool
  | entering | first | counting | counted | uncounting | leaving | last | left => true
  | outside | reading | writing => false

/-- It is in the count. -/
def inCount : Phase → Bool
  | counted | reading | uncounting => true
  | outside | entering | first | counting | leaving | last | left | writing => false

/-- The group has the room because of it, though it is not in the count. -/
def hasRoom : Phase → Bool
  | counting | leaving | last => true
  | outside | entering | first | counted | reading | uncounting | left | writing => false

variable {p : Phase}

theorem hasMutex_of_hasRoom (h : p.hasRoom = true) : p.hasMutex = true := by
  cases p <;> simp_all [hasRoom, hasMutex]

end Phase

/-- The state of the protocol, for threads `ι`. -/
@[ext] structure Lock (ι : Type*) where
  /-- The semaphore around the count. -/
  mutex : ℕ
  /-- The semaphore around the room. -/
  room : ℕ
  /-- The number of readers. -/
  count : ℤ
  /-- What each thread is doing. -/
  phase : ι → Phase

variable {ι : Type*}

/-! ### The invariant -/

section Holds

variable [Fintype ι]

/-- The number of threads in a phase that satisfies `f`. -/
def number (f : Phase → Bool) (phase : ι → Phase) : ℕ := (Finset.univ.filter fun t => f (phase t) = true).card

variable {t : ι}

theorem number_pos (f : Phase → Bool) (phase : ι → Phase) (h : f (phase t) = true) : 0 < number f phase :=
  card_filter_pos (Finset.mem_univ t) h

variable {u : ι}

/-- A thread is the only one when the number is at most one. -/
theorem eq_of_number_le_one (f : Phase → Bool) (phase : ι → Phase) (h : number f phase ≤ 1)
    (ht : f (phase t) = true) (hu : f (phase u) = true) : u = t :=
  eq_of_card_filter_le_one h (Finset.mem_univ u) (Finset.mem_univ t) hu ht

/-- The readers have the room. -/
def Lock.grouped (s : Lock ι) : Bool := s.count != 0 || decide (0 < number Phase.hasRoom s.phase)

/-- **Who holds what.** -/
structure Ok (s : Lock ι) : Prop where
  /-- The mutex is free or one thread has it. -/
  mutex : s.mutex + number Phase.hasMutex s.phase = 1
  /-- The count is the number of readers that counted themselves. -/
  count : s.count = number Phase.inCount s.phase
  /-- The room is free, or one writer has it, or the readers have it. -/
  room : s.room + number (· == .writing) s.phase + s.grouped.toNat = 1
  /-- Nobody is counted while the first reader waits for the room. -/
  first : ∀ t, s.phase t = .first → s.count = 0
  /-- Nobody is counted when the last reader gives back the room. -/
  last : ∀ t, s.phase t = .last → s.count = 0

namespace Ok

variable {s : Lock ι} (h : Ok s)
include h

/-- Two threads do not have the mutex together. -/
theorem eq_of_hasMutex (ht : (s.phase t).hasMutex = true) (hu : (s.phase u).hasMutex = true) : u = t :=
  eq_of_number_le_one Phase.hasMutex s.phase (by have := h.mutex; omega) ht hu

/-- Nobody else has the mutex when `t` has it, or when it is free. -/
theorem alone (ht : (s.phase t).hasMutex = true ∨ 0 < s.mutex) (hu : u ≠ t) : (s.phase u).hasMutex = false := by
  by_contra hmutex
  rw [Bool.not_eq_false] at hmutex
  rcases ht with ht | ht
  · exact hu (h.eq_of_hasMutex ht hmutex)
  · have hpos := number_pos Phase.hasMutex s.phase hmutex
    have := h.mutex
    omega

/-- **A writer is alone**: nobody else writes and nobody reads. -/
theorem writer_alone (ht : s.phase t = .writing) (u : ι) :
    (s.phase u).inCount = false ∧ (s.phase u = .writing → u = t) := by
  have hpos := number_pos (· == .writing) s.phase (t := t) (by simp [ht])
  have hroom := h.room
  constructor
  · by_contra hcount
    rw [Bool.not_eq_false] at hcount
    have hreader := number_pos Phase.inCount s.phase hcount
    have hgrouped : s.grouped = true := by
      have := h.count
      have hne : s.count ≠ 0 := by omega
      simp [Lock.grouped, hne]
    rw [hgrouped] at hroom
    simp only [Bool.toNat_true] at hroom
    omega
  · intro hu
    exact eq_of_number_le_one (· == .writing) s.phase (by omega) (by simp [ht]) (by simp [hu])

theorem count_nonneg : 0 ≤ s.count := by
  have := h.count
  omega

theorem count_pos (ht : (s.phase t).inCount = true) : 0 < s.count := by
  have hpos := number_pos Phase.inCount s.phase ht
  have := h.count
  omega

end Ok

/-- The invariant at the start: both semaphores are one, and nobody is about. -/
theorem ok_initial : Ok (⟨1, 1, 0, fun _ => .outside⟩ : Lock ι) := by
  refine ⟨?_, ?_, ?_, nofun, nofun⟩ <;>
    simp [number, Phase.hasMutex, Phase.inCount, Phase.hasRoom, Lock.grouped]

end Holds

/-! ### The steps -/

variable [DecidableEq ι]

/-- Thread `t` goes to phase `p`. -/
def Lock.goto (s : Lock ι) (t : ι) (p : Phase) : Lock ι := { s with phase := update s.phase t p }

/-- A step of thread `t`. -/
inductive Step (s : Lock ι) (t : ι) : Lock ι → Prop where
  /-- A reader takes the mutex to enter. -/
  | enter : s.phase t = .outside → 0 < s.mutex → Step s t { s.goto t .entering with mutex := s.mutex - 1 }
  | isFirst : s.phase t = .entering → s.count = 0 → Step s t (s.goto t .first)
  | notFirst : s.phase t = .entering → s.count ≠ 0 → Step s t (s.goto t .counting)
  /-- The first reader takes the room. -/
  | take : s.phase t = .first → 0 < s.room → Step s t { s.goto t .counting with room := s.room - 1 }
  /-- A reader counts itself. -/
  | count : s.phase t = .counting → Step s t { s.goto t .counted with count := s.count + 1 }
  /-- It gives back the mutex and reads. -/
  | read : s.phase t = .counted → Step s t { s.goto t .reading with mutex := s.mutex + 1 }
  /-- A reader takes the mutex to leave. -/
  | leave : s.phase t = .reading → 0 < s.mutex → Step s t { s.goto t .uncounting with mutex := s.mutex - 1 }
  /-- It uncounts itself. -/
  | uncount : s.phase t = .uncounting → Step s t { s.goto t .leaving with count := s.count - 1 }
  | isLast : s.phase t = .leaving → s.count = 0 → Step s t (s.goto t .last)
  | notLast : s.phase t = .leaving → s.count ≠ 0 → Step s t (s.goto t .left)
  /-- The last reader gives back the room. -/
  | give : s.phase t = .last → Step s t { s.goto t .left with room := s.room + 1 }
  /-- It gives back the mutex and is gone. -/
  | exit : s.phase t = .left → Step s t { s.goto t .outside with mutex := s.mutex + 1 }
  /-- A writer takes the room. -/
  | write : s.phase t = .outside → 0 < s.room → Step s t { s.goto t .writing with room := s.room - 1 }
  /-- A writer gives back the room. -/
  | written : s.phase t = .writing → Step s t { s.goto t .outside with room := s.room + 1 }

variable {s' : Lock ι}

/-- A step of thread `t` leaves the other threads where they are. -/
theorem Step.phase_of_ne {s : Lock ι} (h : Step s t s') (hu : u ≠ t) : s'.phase u = s.phase u := by
  cases h <;> exact update_of_ne hu _ _

section Preserved

variable [Fintype ι]

/-- How a number of threads changes when thread `t` goes to phase `p`. -/
theorem number_update (f : Phase → Bool) (phase : ι → Phase) (t : ι) (p : Phase) :
    number f (update phase t p) + (f (phase t)).toNat = number f phase + (f p).toNat := by
  have h := card_filter_move (S := Finset.univ) (p := fun u => f (phase u) = true)
    (q := fun u => f (update phase t p u) = true) (Finset.mem_univ t)
    fun u _ hu => by rw [update_of_ne hu]
  unfold number
  cases hq : f (phase t) <;> cases hp : f p <;> simp_all

/-- When no other thread satisfies `f` the number is that of one thread. -/
theorem number_eq_toNat {f : Phase → Bool} {phase : ι → Phase} (h : ∀ u, u ≠ t → f (phase u) = false) :
    number f phase = (f (phase t)).toNat := by
  unfold number
  have heq : (Finset.univ.filter fun u => f (phase u) = true) = if f (phase t) = true then {t} else ∅ := by
    ext u
    by_cases hu : u = t
    · split_ifs <;> simp_all
    · split_ifs <;> simp [h u hu, hu]
  rw [heq]
  cases f (phase t) <;> simp

namespace Ok

variable {s : Lock ι} (h : Ok s)
include h

/-- **A step of a reader** that has the mutex before or after it keeps the invariant when its own
books balance. -/
theorem move (ht : (s.phase t).hasMutex = true ∨ 0 < s.mutex) (hphase : s'.phase = update s.phase t p)
    (hmutex : s'.mutex + p.hasMutex.toNat = s.mutex + (s.phase t).hasMutex.toNat)
    (hcount : s'.count - p.inCount.toNat = s.count - (s.phase t).inCount.toNat)
    (hroom : s'.room + (s'.count != 0 || p.hasRoom).toNat =
      s.room + (s.count != 0 || (s.phase t).hasRoom).toNat)
    (hwriting : p ≠ .writing ∧ s.phase t ≠ .writing)
    (hzero : p = .first ∨ p = .last → s'.count = 0) : Ok s' := by
  have hothers : ∀ u, u ≠ t → (s.phase u).hasRoom = false := fun u hu => by
    by_contra hne
    rw [Bool.not_eq_false] at hne
    have := h.alone ht hu
    simp [Phase.hasMutex_of_hasRoom hne] at this
  -- Of the threads that stand for the group only `t` is there, before and after.
  have hbefore : s.grouped = (s.count != 0 || (s.phase t).hasRoom) := by
    unfold Lock.grouped
    rw [number_eq_toNat hothers]
    cases (s.phase t).hasRoom <;> simp
  have hafter : s'.grouped = (s'.count != 0 || p.hasRoom) := by
    unfold Lock.grouped
    rw [number_eq_toNat (t := t) fun u hu => by rw [hphase, update_of_ne hu]; exact hothers u hu,
      hphase, update_self]
    cases p.hasRoom <;> simp
  have hM := number_update Phase.hasMutex s.phase t p
  have hC := number_update Phase.inCount s.phase t p
  have hW := number_update (· == Phase.writing) s.phase t p
  rw [← hphase] at hM hC hW
  have hpw : (p == .writing) = false := by simp [hwriting.1]
  have htw : (s.phase t == .writing) = false := by simp [hwriting.2]
  rw [hpw, htw] at hW
  have h₁ := h.mutex
  have h₂ := h.count
  have h₃ := h.room
  -- A thread that waits as the first or the last reader has the mutex, so it is `t`.
  have hsame : ∀ u, s'.phase u = .first ∨ s'.phase u = .last → u = t := fun u hu => by
    by_contra hne
    rw [hphase, update_of_ne hne] at hu
    have := h.alone ht hne
    rcases hu with hu | hu <;> simp [hu, Phase.hasMutex] at this
  have hcount' : ∀ u, s'.phase u = .first ∨ s'.phase u = .last → s'.count = 0 := fun u hu => by
    obtain rfl := hsame u hu
    rw [hphase, update_self] at hu
    exact hzero hu
  refine ⟨by omega, by omega, ?_, fun u hu => hcount' u (.inl hu), fun u hu => hcount' u (.inr hu)⟩
  rw [hafter]
  rw [hbefore] at h₃
  omega

/-- **A step of a writer** keeps the invariant when its own books balance. -/
theorem moveWriter (hphase : s'.phase = update s.phase t p) (hmutex : s'.mutex = s.mutex) (hcount : s'.count = s.count)
    (hroom : s'.room + (p == .writing).toNat = s.room + (s.phase t == .writing).toNat)
    (ht : s.phase t = .outside ∨ s.phase t = .writing) (hp : p = .outside ∨ p = .writing) : Ok s' := by
  have hsame : ∀ f : Phase → Bool, f .outside = false → f .writing = false →
      number f s'.phase = number f s.phase := fun f hout hwriting => by
    have hf := number_update f s.phase t p
    rw [← hphase] at hf
    rcases ht with ht | ht <;> rcases hp with hp | hp <;> rw [ht, hp] at hf <;> simpa [hout, hwriting] using hf
  have hW := number_update (· == Phase.writing) s.phase t p
  rw [← hphase] at hW
  have hgrouped : s'.grouped = s.grouped := by
    unfold Lock.grouped
    rw [hcount, hsame Phase.hasRoom rfl rfl]
  have hother : ∀ u q, q ≠ .outside → q ≠ .writing → s'.phase u = q → s.phase u = q := by
    intro u q hq hq' hu
    obtain rfl | hut := eq_or_ne u t
    · rw [hphase, update_self] at hu
      rcases hp with hp | hp
      · exact absurd (hu.symm.trans hp) hq
      · exact absurd (hu.symm.trans hp) hq'
    · rwa [hphase, update_of_ne hut] at hu
  refine ⟨?_, ?_, ?_, fun u hu => ?_, fun u hu => ?_⟩
  · rw [hmutex, hsame Phase.hasMutex rfl rfl]
    exact h.mutex
  · rw [hcount, hsame Phase.inCount rfl rfl]
    exact h.count
  · have := h.room
    rw [hgrouped]
    omega
  · rw [hcount]
    exact h.first u (hother u .first nofun nofun hu)
  · rw [hcount]
    exact h.last u (hother u .last nofun nofun hu)

attribute [local simp] Phase.hasMutex Phase.inCount Phase.hasRoom Lock.goto

/-- **Every step keeps the invariant.** -/
theorem step (hst : Step s t s') : Ok s' := by
  cases hst with
  | enter hp hm | leave hp hm =>
    refine h.move (.inr hm) rfl ?_ ?_ ?_ ?_ ?_ <;> simp [hp]
    omega
  | isFirst hp hc | isLast hp hc | notLast hp hc =>
    refine h.move (.inl ?_) rfl ?_ ?_ ?_ ?_ ?_ <;> simp [hp, hc]
  | notFirst hp hc =>
    have hc := bne_iff_ne.mpr hc
    refine h.move (.inl ?_) rfl ?_ ?_ ?_ ?_ ?_ <;> simp [hp, hc]
  | take hp hr =>
    -- The token goes from the semaphore to the group.
    have hc := h.first t hp
    refine h.move (.inl ?_) rfl ?_ ?_ ?_ ?_ ?_ <;> simp [hp, hc]
    omega
  | count hp =>
    have hc : s.count + 1 ≠ 0 := by have := h.count_nonneg; omega
    refine h.move (.inl ?_) rfl ?_ ?_ ?_ ?_ ?_ <;> simp [hp, hc]
  | read hp | exit hp =>
    refine h.move (.inl ?_) rfl ?_ ?_ ?_ ?_ ?_ <;> simp [hp]
  | uncount hp =>
    have hc := bne_iff_ne.mpr (h.count_pos (t := t) (by simp [hp])).ne'
    refine h.move (.inl ?_) rfl ?_ ?_ ?_ ?_ ?_ <;> simp [hp, hc]
  | give hp =>
    -- The token goes back from the group to the semaphore.
    have hc := h.last t hp
    refine h.move (.inl ?_) rfl ?_ ?_ ?_ ?_ ?_ <;> simp [hp, hc]
  | write hp hr =>
    refine h.moveWriter (t := t) rfl rfl rfl ?_ (.inl hp) (.inr rfl)
    rw [hp]
    exact Nat.sub_add_cancel hr
  | written hp =>
    refine h.moveWriter (t := t) rfl rfl rfl ?_ (.inr hp) (.inl rfl)
    simp [hp]

end Ok

end Preserved

end Pintos.ReadersWriters
