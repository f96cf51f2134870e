import Mathlib.Algebra.Group.Nat.Defs
import Mathlib.Data.Nat.Log
import Mathlib.Data.Nat.Size

/-!
# The calibration of the timer (`devices/timer.c`)

`timer_calibrate` looks for the number of loops that fit in a timer tick: a power of two first, and
then nine more bits.

## The model

The hardware is the function `tooManyLoops`. Numbers are unsigned words, `none` is a failed
assertion, and the loops are bounded by `fuel`.

## What is proved

Each of the nine bits is tested with the leading bit alone, and not with the bits that were found
before it. With `2 ^ k` the leading bit of the threshold `T`, the bits that are set are all those
below `2 ^ s`, where `2 ^ s` is the first power of two above `T - 2 ^ k` (`timerCalibrate_eq`). So
the result fits in a tick exactly when there is no room for one more bit below `2 ^ s`
(**`timer_calibrate_iff`**).
-/

namespace Pintos.Devices.Calibrate

variable (tooManyLoops : ℕ → Bool)

/-- The first loop of `timer_calibrate`. -/
def doubleLoop : (fuel loopsPerTick : ℕ) → Option ℕ
  | 0, _ => none
  | fuel + 1, loopsPerTick =>
    let next := (loopsPerTick <<< 1) % 2 ^ 32
    if tooManyLoops next then some loopsPerTick
    -- `ASSERT (loops_per_tick != 0)`
    else if next = 0 then none else doubleLoop fuel next

/-- The second loop of `timer_calibrate`. -/
def refineLoop (highBit : ℕ) : (fuel testBit loopsPerTick : ℕ) → Option ℕ
  | 0, _, _ => none
  | fuel + 1, testBit, loopsPerTick =>
    if testBit = highBit >>> 10 then some loopsPerTick
    else refineLoop highBit fuel (testBit >>> 1)
      (if tooManyLoops (highBit ||| testBit) then loopsPerTick else loopsPerTick ||| testBit)

def timerCalibrate (fuel : ℕ) : Option ℕ := do
  let highBit ← doubleLoop tooManyLoops fuel (1 <<< 10)
  refineLoop tooManyLoops highBit fuel (highBit >>> 1) highBit

/-- The hardware as a threshold. -/
def threshold (T n : ℕ) : Bool := T < n

section Loops

variable {T k : ℕ}

theorem doubleLoop_eq (hlow : 2 ^ k ≤ T) (hhigh : T < 2 ^ (k + 1)) (hk : k ≤ 30) {n j fuel : ℕ} (hn : j + n = k)
    (hfuel : n < fuel) : doubleLoop (threshold T) fuel (2 ^ j) = some (2 ^ k) := by
  have hnext : ∀ j ≤ k, (2 ^ j <<< 1) % 2 ^ 32 = 2 ^ (j + 1) := fun j hj => by
    rw [Nat.shiftLeft_eq, ← Nat.pow_add, Nat.mod_eq_of_lt (Nat.pow_lt_pow_right (by decide) (by omega))]
  induction n generalizing j fuel with
  | zero =>
    obtain _ | fuel := fuel
    · omega
    obtain rfl : j = k := hn
    rw [doubleLoop, hnext j le_rfl]
    exact if_pos (decide_eq_true hhigh)
  | succ n ih =>
    obtain _ | fuel := fuel
    · omega
    have hle : 2 ^ (j + 1) ≤ T := (Nat.pow_le_pow_right (by decide) (by omega)).trans hlow
    rw [doubleLoop, hnext j (by omega)]
    rw [if_neg (by simpa [threshold] using hle), if_neg (Nat.two_pow_pos _).ne']
    exact ih (by omega) (Nat.lt_of_succ_lt_succ hfuel)

/-- The bits from `2 ^ i` up are those below `2 ^ s`. -/
theorem refineLoop_eq (hlow : 2 ^ k ≤ T) (hk : 10 ≤ k) {n i fuel : ℕ} (hi : i = k - 10 + n)
    (hik : i < k) (hfuel : n < fuel) :
    refineLoop (threshold T) (2 ^ k) fuel (2 ^ i) (2 ^ k + (2 ^ (T - 2 ^ k).size - 2 ^ (i + 1))) =
      some (2 ^ k + (2 ^ (T - 2 ^ k).size - 2 ^ (k - 9))) := by
  have hend : 2 ^ k >>> 10 = 2 ^ (k - 10) := by rw [Nat.shiftRight_eq_div_pow, Nat.pow_div hk (by decide)]
  induction n generalizing i fuel with
  | zero =>
    obtain _ | fuel := fuel
    · omega
    obtain rfl : i = k - 10 := hi
    rw [refineLoop, hend, if_pos rfl, show k - 10 + 1 = k - 9 by omega]
  | succ n ih =>
    obtain _ | fuel := fuel
    · omega
    obtain _ | i := i
    · omega
    have hne : 2 ^ (i + 1) ≠ 2 ^ k >>> 10 := by
      rw [hend]
      exact fun h => absurd (Nat.pow_right_injective le_rfl h) (by omega)
    have hhalf : 2 ^ (i + 1) >>> 1 = 2 ^ i := by
      rw [Nat.shiftRight_eq_div_pow, Nat.pow_div (by omega) (by decide), Nat.add_sub_cancel]
    have hor : 2 ^ k ||| 2 ^ (i + 1) = 2 ^ k + 2 ^ (i + 1) := by
      have := Nat.two_pow_add_eq_or_of_lt (Nat.pow_lt_pow_right (a := 2) (by decide) hik) 1
      rw [← Nat.mul_one (2 ^ k), this]
    have hbit : threshold T (2 ^ k + 2 ^ (i + 1)) = true ↔ (T - 2 ^ k).size ≤ i + 1 := by
      rw [Nat.size_le, threshold, decide_eq_true_iff]
      omega
    rw [refineLoop, if_neg hne, hhalf, hor]
    refine Eq.trans ?_ (ih (i := i) (by omega) (by omega) (Nat.lt_of_succ_lt_succ hfuel))
    congr 1
    split_ifs with h
    · -- the bit is above all that are set
      rw [hbit] at h
      have h₁ := Nat.pow_le_pow_right (n := 2) (by decide) h
      have h₂ : 2 ^ (i + 1) ≤ 2 ^ (i + 1 + 1) := Nat.pow_le_pow_right (by decide) (Nat.le_succ _)
      omega
    · rw [hbit, not_le] at h
      obtain ⟨x, hx⟩ : 2 ^ (i + 2) ∣ 2 ^ k := Nat.pow_dvd_pow 2 (by omega)
      obtain ⟨y, hy⟩ : 2 ^ (i + 2) ∣ 2 ^ (T - 2 ^ k).size := Nat.pow_dvd_pow 2 (by omega)
      have hsplit : 2 ^ k + (2 ^ (T - 2 ^ k).size - 2 ^ (i + 2)) = 2 ^ (i + 2) * (x + (y - 1)) := by
        rw [hy, hx, Nat.mul_add, Nat.mul_sub, Nat.mul_one]
      have hle : 2 ^ (i + 2) ≤ 2 ^ (T - 2 ^ k).size := Nat.pow_le_pow_right (by decide) h
      have hdouble : 2 ^ (i + 2) = 2 ^ (i + 1) + 2 ^ (i + 1) := by rw [Nat.pow_succ]; omega
      rw [hsplit, ← Nat.two_pow_add_eq_or_of_lt (Nat.pow_lt_pow_right (by decide) (Nat.lt_succ_self _)), ← hsplit]
      generalize 2 ^ (T - 2 ^ k).size = y at hle ⊢
      rw [hdouble] at hle ⊢
      omega

end Loops

theorem timerCalibrate_eq {T fuel : ℕ} (hlow : 1024 ≤ T) (hhigh : T < 2 ^ 31) (hfuel : 32 ≤ fuel) :
    timerCalibrate (threshold T) fuel =
      some (2 ^ Nat.log 2 T + (2 ^ (T - 2 ^ Nat.log 2 T).size - 2 ^ (Nat.log 2 T - 9))) := by
  have hk : 10 ≤ Nat.log 2 T := Nat.le_log_of_pow_le (by decide) hlow
  have hk' : Nat.log 2 T ≤ 30 := Nat.lt_succ_iff.mp (Nat.log_lt_of_lt_pow (by omega) hhigh)
  have hpow : 2 ^ Nat.log 2 T ≤ T := Nat.pow_log_le_self 2 (by omega)
  have hpow' : T < 2 ^ (Nat.log 2 T + 1) := Nat.lt_pow_succ_log_self (by decide) T
  generalize Nat.log 2 T = k at *
  have hdouble : doubleLoop (threshold T) fuel (1 <<< 10) = some (2 ^ k) :=
    doubleLoop_eq hpow hpow' hk' (n := k - 10) (j := 10) (by omega) (by omega)
  have hsize : 2 ^ (T - 2 ^ k).size - 2 ^ k = 0 := by
    rw [Nat.sub_eq_zero_iff_le]
    refine Nat.pow_le_pow_right (by decide) (Nat.size_le.mpr ?_)
    rw [Nat.pow_succ] at hpow'
    omega
  have hrefine := refineLoop_eq hpow hk (n := 9) (i := k - 1) (by omega) (by omega) (show 9 < fuel by omega)
  rw [Nat.sub_add_cancel (by omega : 1 ≤ k), hsize, Nat.add_zero] at hrefine
  have hhalf : 2 ^ k >>> 1 = 2 ^ (k - 1) := by rw [Nat.shiftRight_eq_div_pow, Nat.pow_div (by omega) (by decide)]
  rw [timerCalibrate, hdouble, Option.bind_eq_bind, Option.bind_some, hhalf, hrefine]

/-- **When the calibration is right**: the result is within the nine bits of the largest count that
fits exactly when the bits that are set do not exceed those of the threshold. -/
theorem timer_calibrate_iff (T : ℕ) (hlow : 1024 ≤ T) (hhigh : T < 2 ^ 31) :
    ∃ loopsPerTick, (∀ fuel ≥ 32, timerCalibrate (threshold T) fuel = some loopsPerTick) ∧
      (loopsPerTick ≤ T ∧ T - T / 256 < loopsPerTick ↔
        2 ^ (T - 2 ^ Nat.log 2 T).size ≤ T - 2 ^ Nat.log 2 T + 2 ^ (Nat.log 2 T - 9)) := by
  refine ⟨_, fun fuel hfuel => timerCalibrate_eq hlow hhigh hfuel, ?_⟩
  have hk : 10 ≤ Nat.log 2 T := Nat.le_log_of_pow_le (by decide) hlow
  have hpow : 2 ^ Nat.log 2 T ≤ T := Nat.pow_log_le_self 2 (by omega)
  have hunit : 2 ^ Nat.log 2 T = 2 ^ (Nat.log 2 T - 9) * 512 := by
    rw [show 512 = 2 ^ 9 from rfl, ← Nat.pow_add]
    congr 1
    omega
  have hsize := Nat.lt_size_self (T - 2 ^ Nat.log 2 T)
  have hpos : 0 < 2 ^ (Nat.log 2 T - 9) := Nat.two_pow_pos _
  generalize 2 ^ (T - 2 ^ Nat.log 2 T).size = x at hsize ⊢
  rw [hunit] at hpow hsize ⊢
  generalize 2 ^ (Nat.log 2 T - 9) = u at hpow hsize hpos ⊢
  omega

theorem timer_calibrate_iff_small : ∃ loopsPerTick,
    (∀ fuel ≥ 32, timerCalibrate (threshold 2047) fuel = some loopsPerTick) ∧
    loopsPerTick ≤ 2047 ∧ 2047 - 2047 / 256 < loopsPerTick := by
  obtain ⟨l, hl, hiff⟩ := timer_calibrate_iff 2047 (by decide) (by decide)
  exact ⟨l, hl, hiff.mpr (by decide)⟩

/-- With the threshold 1536 the result is 2046. -/
theorem timer_calibrate_too_many : timerCalibrate (threshold 1536) 32 = some 2046 ∧ ¬ 2046 ≤ 1536 := by
  decide

end Pintos.Devices.Calibrate
