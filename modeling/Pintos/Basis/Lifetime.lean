import Mathlib.Data.List.Basic

/-!
# The life of objects

Threads allocate objects, use them and free them. A `Ledger` is the log of all that with the
life of each object, and it can only be built so that the two agree: an object is allocated
once, used only while it is live, and freed at most once. What does not fit the life of its
object cannot be recorded (`Ledger.record`).

So the log of a ledger has no use after free, and an object is freed as often as its life says
(`Ledger.ne_of_mem_after_free`, `Ledger.count_free`).
-/

namespace Pintos

/-- What is done to an object; a use is of a kind `κ`. -/
inductive ObjectOp (κ : Type) where
  | alloc
  | use (kind : κ)
  | free
  deriving DecidableEq

/-- Where an object is in its life. -/
inductive Life where
  /-- Not yet allocated. -/
  | unused
  /-- Allocated. -/
  | live
  | freed
  deriving DecidableEq

/-- What an operation makes of the life of its object, if it is possible. -/
def Life.next {κ : Type} : Life → ObjectOp κ → Option Life
  | .unused, .alloc => some .live
  | .live, .use _ => some .live
  | .live, .free => some .freed
  | _, _ => none

/-- A thread does something to an object. -/
structure ObjectEvent (τ ω κ : Type) where
  thread : τ
  object : ω
  /-- What it does. -/
  op : ObjectOp κ
  deriving DecidableEq

variable {τ ω κ : Type} [DecidableEq ω]

/-- The life of an object after some events, if they are possible. -/
def lifeAfter (o : ω) : Life → List (ObjectEvent τ ω κ) → Option Life
  | x, [] => some x
  | x, e :: l => if e.object = o then (x.next e.op).bind fun y => lifeAfter o y l else lifeAfter o x l

variable {x : Life} {o : ω}

theorem lifeAfter_append {l₁ l₂ : List (ObjectEvent τ ω κ)} :
    lifeAfter o x (l₁ ++ l₂) = (lifeAfter o x l₁).bind fun y => lifeAfter o y l₂ := by
  induction l₁ generalizing x with
  | nil => rfl
  | cons e l ih =>
    by_cases he : e.object = o
    · cases hx : x.next e.op with
      | none => simp [lifeAfter, he, hx]
      | some y => simp [lifeAfter, he, hx, ih]
    · simp [lifeAfter, he, ih]

variable {l : List (ObjectEvent τ ω κ)}

/-- Nothing happens to an object that was freed. -/
theorem ne_of_lifeAfter_freed (h : lifeAfter o .freed l = some x) : ∀ e ∈ l, e.object ≠ o := by
  induction l with
  | nil => simp
  | cons e l ih =>
    by_cases he : e.object = o
    · have hnone : Life.freed.next e.op = none := by cases e.op <;> rfl
      simp [lifeAfter, he, hnone] at h
    · simp only [lifeAfter, if_neg he] at h
      intro e' he'
      obtain rfl | he' := List.mem_cons.mp he'
      · exact he
      · exact ih h e' he'

/-- Nothing has happened to an object that is not allocated. -/
theorem ne_of_lifeAfter_unused (h : lifeAfter o x l = some .unused) : x = .unused ∧ ∀ e ∈ l, e.object ≠ o := by
  induction l generalizing x with
  | nil =>
    cases h
    simp
  | cons e l ih =>
    by_cases he : e.object = o
    · simp only [lifeAfter, if_pos he] at h
      obtain ⟨y, hy, hrest⟩ := Option.bind_eq_some_iff.mp h
      obtain ⟨rfl, -⟩ := ih hrest
      cases x <;> cases hop : e.op <;> rw [hop] at hy <;> cases hy
    · simp only [lifeAfter, if_neg he] at h
      obtain ⟨hx, hrest⟩ := ih h
      exact ⟨hx, List.forall_mem_cons.mpr ⟨he, hrest⟩⟩

/-- An event frees the object. -/
def ObjectEvent.frees (o : ω) (e : ObjectEvent τ ω κ) : Bool :=
  match e.op with
  | .free => decide (e.object = o)
  | _ => false

theorem lifeAfter_count {y : Life} (h : lifeAfter o x l = some y) :
    (if x = .freed then 1 else 0) + l.countP (·.frees o) = if y = .freed then 1 else 0 := by
  induction l generalizing x with
  | nil =>
    cases h
    rfl
  | cons e l ih =>
    obtain ⟨t, o', op⟩ := e
    obtain rfl | he := eq_or_ne o' o
    · cases x <;> cases op <;> simp [lifeAfter, Life.next] at h <;> simpa [ObjectEvent.frees, Nat.add_comm] using ih h
    · have hfrees : ObjectEvent.frees o ⟨t, o', op⟩ = false := by cases op <;> simp [ObjectEvent.frees, he]
      simp only [lifeAfter, if_neg he] at h
      rw [List.countP_cons_of_neg (by simp [hfrees])]
      exact ih h

/-- A log with the life of each object. -/
structure Ledger (τ ω κ : Type) [DecidableEq ω] where
  /-- The events, oldest first. -/
  log : List (ObjectEvent τ ω κ)
  /-- The lives. -/
  life : ω → Life
  /-- They agree. -/
  sound : ∀ o, lifeAfter o .unused log = some (life o)

namespace Ledger

/-- Nothing has happened. -/
def empty : Ledger τ ω κ where
  log := []
  life _ := .unused
  sound _ := rfl

/-- One more event. -/
def push (l : Ledger τ ω κ) (t : τ) (o : ω) (op : ObjectOp κ) (x : Life) (h : (l.life o).next op = some x) :
    Ledger τ ω κ where
  log := l.log ++ [⟨t, o, op⟩]
  life := Function.update l.life o x
  sound o' := by
    rw [lifeAfter_append, l.sound o']
    obtain rfl | ho := eq_or_ne o o'
    · simp [lifeAfter, h]
    · simp [lifeAfter, ho, ho.symm]

/-- Record an event, if it is possible. -/
def record (l : Ledger τ ω κ) (t : τ) (o : ω) (op : ObjectOp κ) : Option (Ledger τ ω κ) :=
  match h : (l.life o).next op with
  | some x => some (l.push t o op x h)
  | none => none

/-- Record the events of a thread one after the other. -/
def recordAll (l : Ledger τ ω κ) (t : τ) : List (ω × ObjectOp κ) → Option (Ledger τ ω κ)
  | [] => some l
  | (o, op) :: ops => (l.record t o op).bind fun l => l.recordAll t ops

variable {l : Ledger τ ω κ} {t : τ} {o : ω} {op : ObjectOp κ} {x : Life}

theorem record_eq_push (h : (l.life o).next op = some x) : l.record t o op = some (l.push t o op x h) := by
  unfold record
  split
  · rename_i y hy
    cases h.symm.trans hy
    rfl
  · rename_i hnone
    cases h.symm.trans hnone

/-- Events that fit the lives of their objects can be recorded. -/
theorem recordAll_eq_some {ops : List (ω × ObjectOp κ)} {life : ω → Life}
    (h : ∀ o, lifeAfter o (l.life o) (ops.map fun x => (⟨t, x.1, x.2⟩ : ObjectEvent τ ω κ)) = some (life o)) :
    ∃ l', l.recordAll t ops = some l' ∧ l'.life = life ∧
      l'.log = l.log ++ ops.map fun x => (⟨t, x.1, x.2⟩ : ObjectEvent τ ω κ) := by
  induction ops generalizing l with
  | nil => exact ⟨l, rfl, funext fun o => Option.some_inj.mp (h o), (List.append_nil _).symm⟩
  | cons x ops ih =>
    obtain ⟨o, op⟩ := x
    have ho := h o
    simp only [List.map_cons, lifeAfter, if_true] at ho
    obtain ⟨y, hy, -⟩ := Option.bind_eq_some_iff.mp ho
    have hrest : ∀ o', lifeAfter o' ((l.push t o op y hy).life o')
        (ops.map fun x => (⟨t, x.1, x.2⟩ : ObjectEvent τ ω κ)) = some (life o') := by
      intro o'
      have ho' := h o'
      obtain rfl | heq := eq_or_ne o o'
      · simpa [lifeAfter, hy, push] using ho'
      · simpa [lifeAfter, heq, heq.symm, push] using ho'
    obtain ⟨l', hl', hlife, hlog⟩ := ih hrest
    refine ⟨l', ?_, hlife, ?_⟩
    · simp only [recordAll, record_eq_push hy, Option.bind_some, hl']
    · rw [hlog, List.map_cons]
      exact List.append_assoc _ _ _

/-- **There is no event of an object after it was freed.** -/
theorem ne_of_mem_after_free {l₁ l₂ : List (ObjectEvent τ ω κ)} (h : l.log = l₁ ++ ⟨t, o, .free⟩ :: l₂) :
    ∀ e ∈ l₂, e.object ≠ o := by
  have hlife := l.sound o
  rw [h, lifeAfter_append] at hlife
  obtain ⟨x, -, hx⟩ := Option.bind_eq_some_iff.mp hlife
  simp only [lifeAfter, if_true] at hx
  obtain ⟨y, hy, hrest⟩ := Option.bind_eq_some_iff.mp hx
  have hfreed : y = .freed := by
    cases x with
    | live =>
      cases hy
      rfl
    | unused | freed => cases hy
  rw [hfreed] at hrest
  exact ne_of_lifeAfter_freed hrest

/-- **An object is freed once, if it is.** -/
theorem count_free (l : Ledger τ ω κ) (o : ω) : l.log.countP (·.frees o) = if l.life o = .freed then 1 else 0 := by
  have hcount := lifeAfter_count (l.sound o)
  simpa using hcount

/-- An object that is not live any more was freed once, if anything has happened to it. -/
theorem count_free_of_not_live (hlive : l.life o ≠ .live) {e : ObjectEvent τ ω κ} (he : e ∈ l.log) (ho : e.object = o) :
    l.log.countP (·.frees o) = 1 := by
  rw [l.count_free, if_pos]
  cases hlife : l.life o with
  | unused => exact absurd ho ((ne_of_lifeAfter_unused ((l.sound o).trans (congrArg some hlife))).2 e he)
  | live => exact absurd hlife hlive
  | freed => rfl

end Ledger

end Pintos
