import Mathlib.Data.List.Infix
import Mathlib.Data.List.Nodup

/-!
# A queue with an idle thread

Threads are appended to the end of a queue and dispatched from its head; while the
queue is empty, one thread that never stands on it, the idle thread, is dispatched instead
(`Step`). A run is a sequence of such events (`Run`).

The threads that are dispatched from some moment on are those of the queue at that moment, in its
order, and only then others (`Run.dispatched_comparable`). So nobody is dispatched twice while a
thread stays on the queue (`Run.nodup_dispatched`).
-/

namespace Pintos.Fifo

variable {τ : Type}

/-- What happens to the queue. -/
inductive Event (τ : Type) where
  /-- A thread is put at the end. -/
  | append (t : τ)
  /-- A thread gets the processor. -/
  | dispatch (t : τ)
  deriving DecidableEq

/-- What an event does to the queue. -/
inductive Step (idle : τ) : List τ → Event τ → List τ → Prop where
  /-- Only a thread that is not on the queue is appended, and never the idle thread. -/
  | append {q : List τ} {t : τ} (hnew : t ∉ q) (hidle : t ≠ idle) : Step idle q (.append t) (q ++ [t])
  /-- The first thread is dispatched. -/
  | dispatch {q : List τ} {t : τ} : Step idle (t :: q) (.dispatch t) q
  /-- There is none. -/
  | idle : Step idle [] (.dispatch idle) []

/-- Events one after the other. -/
inductive Run (idle : τ) : List τ → List (Event τ) → List τ → Prop where
  | nil (q : List τ) : Run idle q [] q
  | cons {q m r : List τ} {e : Event τ} {es : List (Event τ)} (step : Step idle q e m) (rest : Run idle m es r) :
    Run idle q (e :: es) r

/-- The threads that are dispatched. -/
def dispatched : List (Event τ) → List τ
  | [] => []
  | .append _ :: es => dispatched es
  | .dispatch t :: es => t :: dispatched es

/-- No thread is on the queue twice, and the idle thread is not on it. -/
structure Ok (idle : τ) (q : List τ) : Prop where
  nodup : q.Nodup
  idle : idle ∉ q

/-- The thread is on the queue all the time. -/
def Stays (idle u : τ) (q : List τ) (es : List (Event τ)) : Prop :=
  ∀ es₁ es₂ m, es = es₁ ++ es₂ → Run idle q es₁ m → u ∈ m

variable {idle u t : τ} {q m r : List τ} {e : Event τ} {es es₁ es₂ : List (Event τ)}

theorem dispatched_append (es₁ es₂ : List (Event τ)) : dispatched (es₁ ++ es₂) = dispatched es₁ ++ dispatched es₂ := by
  induction es₁ with
  | nil => rfl
  | cons e es ih =>
    cases e with
    | append t => exact ih
    | dispatch t => exact congrArg (t :: ·) ih

theorem Run.single (h : Step idle q e r) : Run idle q [e] r := .cons h (.nil r)

theorem Run.trans (h₁ : Run idle q es₁ m) (h₂ : Run idle m es₂ r) : Run idle q (es₁ ++ es₂) r := by
  induction h₁ with
  | nil q => exact h₂
  | cons step _ ih => exact .cons step (ih h₂)

theorem Run.split (h : Run idle q (es₁ ++ es₂) r) : ∃ m, Run idle q es₁ m ∧ Run idle m es₂ r := by
  induction es₁ generalizing q with
  | nil => exact ⟨q, .nil q, h⟩
  | cons e es ih =>
    cases h with
    | cons step rest =>
      obtain ⟨m, h₁, h₂⟩ := ih rest
      exact ⟨m, .cons step h₁, h₂⟩

theorem Step.ok (h : Step idle q e r) (hq : Ok idle q) : Ok idle r := by
  cases h with
  | append hnew hidle =>
    refine ⟨List.nodup_append.mpr ⟨hq.nodup, List.nodup_singleton _, fun a ha b hb => ?_⟩, fun hmem => ?_⟩
    · rw [List.mem_singleton.mp hb]
      exact ne_of_mem_of_not_mem ha hnew
    · rcases List.mem_append.mp hmem with hmem | hmem
      · exact hq.idle hmem
      · exact hidle (List.mem_singleton.mp hmem).symm
  | dispatch => exact ⟨(List.nodup_cons.mp hq.nodup).2, fun hmem => hq.idle (List.mem_cons_of_mem _ hmem)⟩
  | idle => exact hq

theorem Run.ok (h : Run idle q es r) (hq : Ok idle q) : Ok idle r := by
  induction h with
  | nil q => exact hq
  | cons step _ ih => exact ih (step.ok hq)

theorem Step.unique (h : Step idle q e m) (h' : Step idle q e r) : m = r := by
  cases h with
  | append | dispatch | idle => cases h'; rfl

theorem Run.unique (h : Run idle q es m) (h' : Run idle q es r) : m = r := by
  induction h with
  | nil q => cases h'; rfl
  | cons step _ ih =>
    cases h' with
    | cons step' rest' =>
      obtain rfl := step.unique step'
      exact ih rest'

/-- **First in, first out.** What is dispatched is the beginning of the queue, or begins with all of
it. -/
theorem Run.dispatched_comparable (h : Run idle q es r) : dispatched es <+: q ∨ q <+: dispatched es := by
  induction h with
  | nil q => exact .inl List.nil_prefix
  | @cons q m r e es step rest ih =>
    cases step with
    | @append _ t =>
      have hq : q <+: q ++ [t] := List.prefix_append q [t]
      rcases ih with hpre | hpre
      · exact List.prefix_or_prefix_of_prefix hpre hq
      · exact .inr (hq.trans hpre)
    | @dispatch _ t => exact ih.imp (List.prefix_cons_inj t).mpr (List.prefix_cons_inj t).mpr
    | idle => exact .inr List.nil_prefix

/-- A thread that stays on the queue is not dispatched. -/
theorem Stays.notMem_dispatched (hstay : Stays idle u q es) (h : Run idle q es r) (hq : Ok idle q) :
    u ∉ dispatched es := by
  induction h with
  | nil q => exact List.not_mem_nil
  | @cons q m r e es step rest ih =>
    have hrest : Stays idle u m es := fun es₁ es₂ n hes hrun => hstay (e :: es₁) es₂ n (by rw [hes]; rfl) (.cons step hrun)
    have hu : u ∈ m := hrest [] es m rfl (.nil m)
    have hnot := ih hrest (step.ok hq)
    cases step with
    | append => exact hnot
    | dispatch =>
      intro hmem
      rcases List.mem_cons.mp hmem with rfl | hmem
      · exact (List.nodup_cons.mp hq.nodup).1 hu
      · exact hnot hmem
    | idle => cases hu

/-- **Nobody is dispatched twice while a thread stays on the queue.** -/
theorem Run.nodup_dispatched (h : Run idle q es r) (hq : Ok idle q) (hstay : Stays idle u q es) :
    (dispatched es).Nodup := by
  have hu : u ∈ q := hstay [] es q rfl (.nil q)
  rcases h.dispatched_comparable with hpre | hpre
  · exact hq.nodup.sublist hpre.sublist
  · exact absurd (hpre.subset hu) (hstay.notMem_dispatched h hq)

/-- The idle thread is dispatched only when the queue is empty. -/
theorem Step.idle_nil (h : Step idle q (.dispatch idle) r) (hq : Ok idle q) : q = [] := by
  cases h with
  | dispatch => exact absurd List.mem_cons_self hq.idle
  | idle => rfl

end Pintos.Fifo
