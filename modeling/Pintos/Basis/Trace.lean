import Mathlib.Init

/-!
# Computations with a log

`Trace ε χ α` is a computation that logs events of type `ε` and either returns a
value or stops for a reason of type `χ`. What a program may touch, and in which
order, is a property of the log; how it ends is a property of the outcome.

A computation is a value, so that a function of a program is specified by an
equation that says what it logs and how it ends, and a program that calls it is
computed with that equation and the lemmas on `bind` below.
-/

namespace Pintos

/-- A computation with a log. -/
structure Trace (ε χ α : Type) where
  /-- The events, in order. -/
  log : List ε
  /-- The value, or the reason to stop. -/
  out : Except χ α

namespace Trace

variable {ε χ α β : Type}

/-- Log an event. -/
def emit (e : ε) : Trace ε χ Unit := ⟨[e], .ok ()⟩

def stop (x : χ) : Trace ε χ α := ⟨[], .error x⟩

instance : Monad (Trace ε χ) where
  pure a := ⟨[], .ok a⟩
  bind t f :=
    match t.out with
    | .ok a => ⟨t.log ++ (f a).log, (f a).out⟩
    | .error x => ⟨t.log, .error x⟩

/-- The conjunction of C: the second operand is evaluated when the first is true. -/
def and (x y : Trace ε χ Bool) : Trace ε χ Bool := do
  if ← x then y else pure false

@[simp] theorem log_pure (a : α) : (pure a : Trace ε χ α).log = [] := rfl

@[simp] theorem out_pure (a : α) : (pure a : Trace ε χ α).out = .ok a := rfl

@[simp] theorem log_stop (x : χ) : (stop x : Trace ε χ α).log = [] := rfl

@[simp] theorem out_stop (x : χ) : (stop x : Trace ε χ α).out = .error x := rfl

@[simp] theorem mk_ok_bind (l : List ε) (a : α) (f : α → Trace ε χ β) :
    (⟨l, .ok a⟩ : Trace ε χ α) >>= f = ⟨l ++ (f a).log, (f a).out⟩ := rfl

@[simp] theorem mk_error_bind (l : List ε) (x : χ) (f : α → Trace ε χ β) :
    (⟨l, .error x⟩ : Trace ε χ α) >>= f = ⟨l, .error x⟩ := rfl

@[simp] theorem emit_bind (e : ε) (f : Unit → Trace ε χ β) : emit e >>= f = ⟨e :: (f ()).log, (f ()).out⟩ := rfl

theorem pure_bind (a : α) (f : α → Trace ε χ β) : (pure a : Trace ε χ α) >>= f = f a := rfl

theorem bind_assoc {γ : Type} (t : Trace ε χ α) (f : α → Trace ε χ β) (g : β → Trace ε χ γ) :
    t >>= f >>= g = t >>= fun a => f a >>= g := by
  obtain ⟨l, x | a⟩ := t
  · rfl
  · cases h : (f a).out <;> simp [bind, h]

theorem and_bind (x y : Trace ε χ Bool) (f : Bool → Trace ε χ α) :
    and x y >>= f = x >>= fun b => if b then y >>= f else f false := by
  rw [and, bind_assoc]
  refine congrArg (x >>= ·) (funext fun b => ?_)
  cases b <;> simp [pure_bind]

/-- Every event satisfies `p`. -/
def Logs (p : ε → Prop) (t : Trace ε χ α) : Prop := ∀ e ∈ t.log, p e

section Logs

variable {p q : ε → Prop}

@[simp] theorem logs_pure (a : α) : (pure a : Trace ε χ α).Logs p := nofun

@[simp] theorem logs_stop (x : χ) : (stop x : Trace ε χ α).Logs p := nofun

theorem logs_mk {l : List ε} {o : Except χ α} : (⟨l, o⟩ : Trace ε χ α).Logs p ↔ ∀ e ∈ l, p e := Iff.rfl

variable {f : α → Trace ε χ β}

theorem logs_bind {t : Trace ε χ α} : (t >>= f).Logs p ↔ t.Logs p ∧ ∀ a, t.out = .ok a → (f a).Logs p := by
  obtain ⟨l, o⟩ := t
  cases o with
  | ok a =>
    rw [mk_ok_bind, logs_mk, logs_mk, List.forall_mem_append]
    simp [Logs]
  | error x =>
    rw [mk_error_bind, logs_mk, logs_mk]
    simp

/-- A value computed from a result logs nothing. -/
@[simp] theorem logs_bind_pure {t : Trace ε χ α} {g : α → β} : (t >>= fun a => pure (g a)).Logs p ↔ t.Logs p := by
  rw [logs_bind]
  exact and_iff_left fun _ _ => logs_pure _

@[simp] theorem logs_emit_bind {e : ε} {f : Unit → Trace ε χ β} : (emit e >>= f).Logs p ↔ p e ∧ (f ()).Logs p := by
  rw [emit_bind, logs_mk, List.forall_mem_cons]
  exact Iff.rfl

theorem logs_and {x y : Trace ε χ Bool} : (and x y).Logs p ↔ x.Logs p ∧ (x.out = .ok true → y.Logs p) := by
  rw [and, logs_bind]
  refine and_congr_right fun _ => ⟨fun h hx => by simpa using h true hx, fun h b hb => ?_⟩
  cases b with
  | true => simpa using h hb
  | false => simp

theorem Logs.mono {t : Trace ε χ α} (h : t.Logs p) (hpq : ∀ e, p e → q e) : t.Logs q := fun e he => hpq e (h e he)

end Logs

/-! ### Outcomes -/

variable {a : α}

theorem out_bind_ok {t : Trace ε χ α} (h : t.out = .ok a) : (t >>= f).out = (f a).out := by
  obtain ⟨l, o⟩ := t
  cases h
  rfl

theorem bind_of_out {t : Trace ε χ α} (h : t.out = .ok a) : t >>= f = ⟨t.log ++ (f a).log, (f a).out⟩ := by
  obtain ⟨l, o⟩ := t
  cases h
  rfl

theorem out_bind_error {t : Trace ε χ α} {x : χ} (h : t.out = .error x) : (t >>= f).out = .error x := by
  obtain ⟨l, o⟩ := t
  cases h
  rfl

theorem out_and_true {x y : Trace ε χ Bool} (h : x.out = .ok true) : (and x y).out = y.out := out_bind_ok h

theorem out_and_false {x y : Trace ε χ Bool} (h : x.out = .ok false) : (and x y).out = .ok false := out_bind_ok h

/-! ### Reasons to stop -/

/-- If it stops, then for a reason that satisfies `p`. -/
def Stops (p : χ → Prop) (t : Trace ε χ α) : Prop := ∀ x, t.out = .error x → p x

section Stops

variable {p : χ → Prop}

theorem stops_of_out {t : Trace ε χ α} (h : t.out = .ok a) : t.Stops p := by
  intro x hx
  rw [h] at hx
  cases hx

@[simp] theorem stops_pure (a : α) : (pure a : Trace ε χ α).Stops p := stops_of_out rfl

@[simp] theorem stops_stop {x : χ} : (stop x : Trace ε χ α).Stops p ↔ p x := by
  constructor
  · intro h
    exact h x rfl
  · intro h y hy
    cases hy
    exact h

/-- A sequence stops where one of its parts does. -/
@[simp] theorem stops_bind {t : Trace ε χ α} : (t >>= f).Stops p ↔ t.Stops p ∧ ∀ a, t.out = .ok a → (f a).Stops p := by
  cases ho : t.out with
  | ok a => simp [Stops, out_bind_ok ho, ho]
  | error x => simp [Stops, out_bind_error ho, ho]

@[simp] theorem stops_ite {c : Prop} [Decidable c] {t u : Trace ε χ α} :
    (if c then t else u).Stops p ↔ (c → t.Stops p) ∧ (¬ c → u.Stops p) := by
  by_cases h : c <;> simp [h]

end Stops

/-- The value of a computation that has no reason to stop. -/
def value (t : Trace ε Empty α) : α :=
  match t.out with
  | .ok a => a
  | .error x => x.elim

theorem value_of_out {t : Trace ε Empty α} (h : t.out = .ok a) : t.value = a := by
  unfold value
  rw [h]

end Trace

end Pintos
