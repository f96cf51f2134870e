import Mathlib.Data.Nat.Notation
import Mathlib.Logic.Relation

/-!
# Deadlock

Threads hold resources and wait for resources that others hold. A deadlock is a
cycle of threads each of which waits for a resource that the next one holds; since
the one before it waits for it, each of them also holds a resource.

The classical argument is the rule **`not_deadlock_of_rank`**: if the threads have
ranks, and a thread that waits for another waiting thread has the lower rank, there
is no deadlock. A lock order is one way to give the ranks; the rule only asks about
threads that wait, so that a thread may hold what it likes as long as it runs.
-/

namespace Pintos

open Relation

variable {ι ρ : Type*}

/-- Thread `t` waits for a resource that thread `u` holds. -/
def WaitsFor (waits holds : ι → ρ → Prop) (t u : ι) : Prop := ∃ x, waits t x ∧ holds u x

/-- There is a cycle of threads each of which waits for the next. -/
def Deadlock (waits holds : ι → ρ → Prop) : Prop := ∃ t, TransGen (WaitsFor waits holds) t t

section Rank

variable {waits holds : ι → ρ → Prop} (rank : ι → ℕ)
  (h : ∀ t u x y, waits t x → holds u x → waits u y → rank t < rank u)
include h

/-- The rank goes up along a chain of threads that ends in one that waits. -/
theorem rank_lt_of_transGen {t u : ι} (hchain : TransGen (WaitsFor waits holds) t u) {y : ρ} (hu : waits u y) :
    rank t < rank u := by
  induction hchain generalizing y with
  | single hedge =>
    obtain ⟨x, hx, hheld⟩ := hedge
    exact h _ _ x y hx hheld hu
  | tail _ hedge ih =>
    obtain ⟨x, hx, hheld⟩ := hedge
    exact Nat.lt_trans (ih hx) (h _ _ x y hx hheld hu)

/-- **No deadlock** when the rank goes up from a thread to the waiting thread it waits for. -/
theorem not_deadlock_of_rank : ¬Deadlock waits holds := by
  intro ⟨t, hcycle⟩
  obtain ⟨u, ⟨x, hx, -⟩, -⟩ := TransGen.head'_iff.mp hcycle
  exact Nat.lt_irrefl _ (rank_lt_of_transGen rank h hcycle hx)

end Rank

/-- Two threads that wait for each other are a deadlock. -/
theorem Deadlock.of_two {waits holds : ι → ρ → Prop} {t u : ι} {x y : ρ} (ht : waits t x) (hu : holds u x)
    (hu' : waits u y) (ht' : holds t y) : Deadlock waits holds :=
  ⟨t, .tail (.single ⟨x, ht, hu⟩) ⟨y, hu', ht'⟩⟩

end Pintos
