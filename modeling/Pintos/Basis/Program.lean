import Mathlib.Data.Nat.Notation

/-!
# Programs with a state

A program reads and changes a state, and returns a value or stops with an error (a
failed assertion, a panic, an access outside its memory).

`Ends E x s Q` is total correctness with named errors: run from state `s`, the
program `x` returns a value and a state of which `Q` holds, or it stops with an error
of `E`. With `Never` for `E` it says that the program returns. The rules follow the
program: a sequence ends as its parts do one after the other (`Ends.bind`), a loop
keeps its invariant (`Ends.range`), and what a program ends in can be weakened
(`Ends.mono`).
-/

namespace Pintos

/-- A program on states `σ` with errors `ε`. -/
abbrev Program (σ ε α : Type) := StateT σ (Except ε) α

namespace Program

variable {σ ε α β : Type} {E : ε → Prop} {x : Program σ ε α} {f : α → Program σ ε β} {s : σ}

/-- No error. -/
abbrev Never (_ : ε) : Prop := False

/-- From `s` the program returns with `Q`, or stops with an error of `E`. -/
def Ends (E : ε → Prop) (x : Program σ ε α) (s : σ) (Q : α → σ → Prop) : Prop :=
  match x s with
  | .ok (a, t) => Q a t
  | .error e => E e

theorem get_bind_run (g : σ → Program σ ε β) (s : σ) : (get >>= g) s = g s s := rfl

variable {a : α} {y : Except ε α}

/-- A computation that does not use the state. -/
theorem lift_bind_run (hy : y = .ok a) (f : α → Program σ ε β) (s : σ) :
    ((liftM y : Program σ ε α) >>= f) s = f a s := by
  subst hy
  rfl

theorem bind_run : (x >>= f) s = (x s).bind fun r => f r.1 r.2 := rfl

variable {t : σ}

/-- After a part that returns, the rest runs. -/
theorem bind_run_ok (hx : x s = .ok (a, t)) : (x >>= f) s = f a t := by
  rw [bind_run, hx]
  rfl

variable {e : ε}

/-- After a part that stops, the rest does not run. -/
theorem bind_run_error (hx : x s = .error e) : (x >>= f) s = .error e := by
  rw [bind_run, hx]
  rfl

theorem eq_ok_of_bind {r : β × σ} (h : (x >>= f) s = .ok r) : ∃ a t, x s = .ok (a, t) ∧ f a t = .ok r := by
  rw [bind_run] at h
  cases hx : x s with
  | ok a =>
    rw [hx] at h
    exact ⟨a.1, a.2, rfl, h⟩
  | error e =>
    rw [hx] at h
    cases h

/-- A computation that has a value returns it. -/
theorem ok_of_toOption {x : Except ε α} (h : x.toOption = some a) : x = .ok a := by
  cases x with
  | error e => cases h
  | ok v =>
    cases h
    rfl

theorem ok_of_bind {x : Except ε α} {f : α → Except ε β} {r : β} (h : (x >>= f) = .ok r) :
    ∃ v, x = .ok v ∧ f v = .ok r := by
  cases x with
  | error e => cases h
  | ok v => exact ⟨v, rfl, h⟩

/-- A computation stops in its first part, or in the rest. -/
theorem error_of_bind {x : Except ε α} {f : α → Except ε β} (h : (x >>= f) = .error e) :
    x = .error e ∨ ∃ v, f v = .error e := by
  cases x with
  | error e' =>
    cases h
    exact .inl rfl
  | ok v => exact .inr ⟨v, h⟩

section Rules

variable {Q R : α → σ → Prop} {P : β → σ → Prop}

theorem Ends.pure (h : Q a s) : Ends E (Pure.pure a) s Q := h

theorem Ends.throw (h : E e) : Ends E (MonadExcept.throw e : Program σ ε α) s Q := h

theorem Ends.get_bind {f : σ → Program σ ε β} (h : Ends E (f s) s P) : Ends E (get >>= f) s P := h

theorem Ends.set_bind {f : PUnit → Program σ ε β} (h : Ends E (f ⟨⟩) t P) : Ends E (set t >>= f) s P := h

theorem Ends.modify_bind {g : σ → σ} {f : PUnit → Program σ ε β} (h : Ends E (f ⟨⟩) (g s) P) :
    Ends E (modify g >>= f) s P := h

/-- A computation that does not use the state. -/
theorem Ends.lift (hy : y = .ok a) (h : Q a s) : Ends E (liftM y : Program σ ε α) s Q := by
  subst hy
  exact h

theorem Ends.lift_bind (hy : y = .ok a) (h : Ends E (f a) s P) : Ends E ((liftM y : Program σ ε α) >>= f) s P := by
  subst hy
  exact h

theorem Ends.lift_bind_error (hy : y = .error e) (h : E e) : Ends E ((liftM y : Program σ ε α) >>= f) s P := by
  subst hy
  exact h

theorem Ends.mono (h : Ends E x s R) (hQ : ∀ a t, R a t → Q a t) : Ends E x s Q := by
  unfold Ends at h ⊢
  split at h
  · exact hQ _ _ h
  · exact h

/-- **One program after another.** -/
theorem Ends.bind (h : Ends E x s R) (hf : ∀ a t, R a t → Ends E (f a) t P) : Ends E (x >>= f) s P := by
  unfold Ends at h ⊢
  rw [bind_run]
  cases hx : x s with
  | ok r =>
    rw [hx] at h
    exact hf r.1 r.2 h
  | error e =>
    rw [hx] at h
    exact h

theorem Ends.run (hx : x s = .ok (a, t)) (h : Q a t) : Ends E x s Q := by
  unfold Ends
  rw [hx]
  exact h

theorem Ends.of_run_eq {y : Program σ ε α} (hxy : x s = y t) (h : Ends E y t Q) : Ends E x s Q := by
  unfold Ends at h ⊢
  rwa [hxy]

theorem Ends.run_bind (hx : x s = .ok (a, t)) (h : Ends E (f a) t P) : Ends E (x >>= f) s P := by
  unfold Ends at h ⊢
  rw [bind_run, hx]
  exact h

/-- **A loop** over the numbers below `n`, with an invariant. -/
theorem Ends.range {n : ℕ} {f : ℕ → Program σ ε PUnit} (I : ℕ → σ → Prop) (h : I 0 s)
    (hf : ∀ i < n, ∀ s, I i s → Ends E (f i) s fun _ t => I (i + 1) t) :
    Ends E (forM (List.range n) f) s fun _ t => I n t := by
  induction n with
  | zero => exact h
  | succ n ih =>
    rw [List.range_succ, List.forM_append]
    refine .bind (ih fun i hi => hf i (Nat.lt_succ_of_lt hi)) fun _ t ht => ?_
    rw [List.forM_cons, List.forM_nil, bind_pure_unit]
    exact hf n (Nat.lt_succ_self n) t ht

theorem Ends.trivial (hE : ∀ e, E e) : Ends E x s fun _ _ => True := by
  unfold Ends
  split
  · trivial
  · exact hE _

theorem Ends.of_ok (h : Ends E x s Q) (hx : x s = .ok (a, t)) : Q a t := by
  unfold Ends at h
  rw [hx] at h
  exact h

theorem Ends.of_error (h : Ends E x s Q) (hx : x s = .error e) : E e := by
  unfold Ends at h
  rw [hx] at h
  exact h

/-- A program that does not stop with an error returns. -/
theorem Ends.returns (h : Ends Never x s Q) : ∃ a t, x s = .ok (a, t) ∧ Q a t := by
  cases hx : x s with
  | ok r => exact ⟨r.1, r.2, rfl, h.of_ok hx⟩
  | error e => exact (h.of_error hx).elim

theorem Ends.eq_ok (h : Ends Never x s fun b u => b = a ∧ u = t) : x s = .ok (a, t) := by
  obtain ⟨b, u, hx, rfl, rfl⟩ := h.returns
  exact hx

end Rules

end Program

end Pintos
