import Mathlib.Data.BitVec
import Mathlib.Tactic.Linarith
import Mathlib.Tactic.Ring

/-!
# 64-bit division (`lib/arithmetic.c`)

The compiler calls these functions for quotients and remainders of 64-bit numbers, since the
processor divides 64 bits by 32 only, and traps if the quotient does not fit in 32 bits.

## The model

Words are bit vectors, and `none` is a trap. A conversion to a narrower type keeps the low bits, and
one to a wider type copies the sign bit of a signed number. The negation of a signed number wraps
around.

## What is proved

**`quotients_correct`**: the quotients are right and no division traps.
**`remainders_characterised`**: `umod64` and `smod64` have results of 32 bits, and so the remainders
are right exactly when they fit.
-/

namespace Pintos.Lib.Arithmetic

/-- The instruction `divl`: none if it traps. -/
def divl (n : BitVec 64) (d : BitVec 32) : Option (BitVec 32) :=
  if d ≠ 0#32 ∧ n.toNat / d.toNat < 2 ^ 32 then some (BitVec.ofNat 32 (n.toNat / d.toNat)) else none

/-- One of the tests of `nlz`, which shifts `x` by `k` bits if it is small. -/
def nlzStep (limit : BitVec 32) (k : ℕ) (r : ℕ × BitVec 32) : ℕ × BitVec 32 :=
  if r.2 ≤ limit then (r.1 + k, r.2 <<< k) else r

/-- The number of leading zeros. -/
def nlz (x : BitVec 32) : ℕ :=
  let r := nlzStep 0x3FFFFFFF#32 2 (nlzStep 0x0FFFFFFF#32 4 (nlzStep 0x00FFFFFF#32 8 (nlzStep 0x0000FFFF#32 16 (0, x))))
  if r.2 ≤ 0x7FFFFFFF#32 then r.1 + 1 else r.1

/-- The unsigned quotient, by `divl`. -/
def udiv64 (n d : BitVec 64) : Option (BitVec 64) :=
  if d >>> 32 = 0#64 then do
    let b := 1#64 <<< 32
    let n1 := (n >>> 32).setWidth 32
    let n0 := n.setWidth 32
    let d0 := d.setWidth 32
    return (← divl (b * (n1 % d0).setWidth 64 + n0.setWidth 64) d0).setWidth 64 + b * (n1 / d0).setWidth 64
  else if n < d then some 0#64
  else do
    let d1 := (d >>> 32).setWidth 32
    let s := nlz d1
    let q := ((← divl (n >>> 1) (((d <<< s) >>> 32).setWidth 32)) >>> (31 - s)).setWidth 64
    return if n - (q - 1#64) * d < d then q - 1#64 else q

/-- The unsigned remainder, in 32 bits. -/
def umod64 (n d : BitVec 64) : Option (BitVec 32) := do return (n - d * (← udiv64 n d)).setWidth 32

/-- The signed quotient. -/
def sdiv64 (n d : BitVec 64) : Option (BitVec 64) := do
  let nAbs := if 0 ≤ n.toInt then n else -n
  let dAbs := if 0 ≤ d.toInt then d else -d
  let qAbs ← udiv64 nAbs dAbs
  return if decide (n.toInt < 0) = decide (d.toInt < 0) then qAbs else -qAbs

/-- The signed remainder, in 32 bits. -/
def smod64 (n d : BitVec 64) : Option (BitVec 32) := do return (n - d * (← sdiv64 n d)).setWidth 32

/-- `/` on `long long`, as GCC calls it. -/
def divdi3 (n d : BitVec 64) : Option (BitVec 64) := sdiv64 n d

/-- `%` on `long long`. -/
def moddi3 (n d : BitVec 64) : Option (BitVec 64) := do return (← smod64 n d).signExtend 64

/-- `/` on `unsigned long long`. -/
def udivdi3 (n d : BitVec 64) : Option (BitVec 64) := udiv64 n d

/-- `%` on `unsigned long long`. -/
def umoddi3 (n d : BitVec 64) : Option (BitVec 64) := do return (← umod64 n d).setWidth 64

/-! ### Unsigned division -/

variable {n : BitVec 64}

theorem divl_eq {d : BitVec 32} (hd : d ≠ 0#32) (hq : n.toNat / d.toNat < 2 ^ 32) :
    divl n d = some (BitVec.ofNat 32 (n.toNat / d.toNat)) := if_pos ⟨hd, hq⟩

theorem nlzStep_spec (limit : BitVec 32) (k : ℕ) {x : ℕ} {r : ℕ × BitVec 32} (hlimit : limit.toNat + 1 = 2 ^ (32 - k))
    (hk : 2 * k ≤ 32) (hr : r.2.toNat = x * 2 ^ r.1) (hlow : 2 ^ (32 - 2 * k) ≤ r.2.toNat) :
    (nlzStep limit k r).2.toNat = x * 2 ^ (nlzStep limit k r).1 ∧ 2 ^ (32 - k) ≤ (nlzStep limit k r).2.toNat := by
  unfold nlzStep
  split_ifs with hle
  · have hfit : r.2.toNat * 2 ^ k < 2 ^ 32 := by
      have hlt : r.2.toNat < 2 ^ (32 - k) := by
        have : r.2.toNat ≤ limit.toNat := hle
        omega
      calc r.2.toNat * 2 ^ k < 2 ^ (32 - k) * 2 ^ k := by gcongr
        _ = 2 ^ 32 := by rw [← pow_add]; congr 1; omega
    have hshift : (r.2 <<< k).toNat = r.2.toNat * 2 ^ k := by
      rw [BitVec.toNat_shiftLeft, Nat.shiftLeft_eq, Nat.mod_eq_of_lt hfit]
    refine ⟨by rw [hshift, hr, mul_assoc, ← pow_add], ?_⟩
    calc 2 ^ (32 - k) = 2 ^ (32 - 2 * k) * 2 ^ k := by rw [← pow_add]; congr 1; omega
      _ ≤ (r.2 <<< k).toNat := by rw [hshift]; gcongr
  · refine ⟨hr, ?_⟩
    have : ¬ r.2.toNat ≤ limit.toNat := hle
    omega

/-- **`nlz` moves the leading bit to the top.** -/
theorem nlz_spec {x : BitVec 32} (hx : x ≠ 0#32) : 2 ^ 31 ≤ x.toNat * 2 ^ nlz x ∧ x.toNat * 2 ^ nlz x < 2 ^ 32 := by
  have hpos : 2 ^ (32 - 2 * 16) ≤ x.toNat := Nat.pos_of_ne_zero fun h => hx (BitVec.eq_of_toNat_eq h)
  obtain ⟨h16, l16⟩ := nlzStep_spec 0x0000FFFF#32 16 (r := (0, x)) (by decide) (by decide) (mul_one _).symm hpos
  obtain ⟨h8, l8⟩ := nlzStep_spec 0x00FFFFFF#32 8 (by decide) (by decide) h16 l16
  obtain ⟨h4, l4⟩ := nlzStep_spec 0x0FFFFFFF#32 4 (by decide) (by decide) h8 l8
  obtain ⟨h2, l2⟩ := nlzStep_spec 0x3FFFFFFF#32 2 (by decide) (by decide) h4 l4
  unfold nlz
  generalize nlzStep 0x3FFFFFFF#32 2 _ = r at h2 l2
  have hlt := r.2.isLt
  dsimp only
  split_ifs with hle
  · have hle' : r.2.toNat ≤ 0x7FFFFFFF := hle
    have hdouble : x.toNat * 2 ^ (r.1 + 1) = r.2.toNat * 2 := by rw [h2, pow_succ, mul_assoc]
    omega
  · have hle' : ¬ r.2.toNat ≤ 0x7FFFFFFF := hle
    rw [← h2]
    omega

/-- The quotient by a divisor `V` that is a little smaller than `D` is too great by 1 at most. -/
theorem div_le_div_add_one {N D V : ℕ} (hV : 0 < V) (hclose : N * (D - V) ≤ V * D) (hle : V ≤ D) : N / V ≤ N / D + 1 := by
  have hD : 0 < D := by omega
  have hN : N < (N / D + 1) * D := by rw [mul_comm]; exact Nat.lt_mul_div_succ N hD
  have hmul : N * D ≤ V * (N + D) := by
    have hsplit : N * D = N * (D - V) + N * V := by rw [← mul_add, Nat.sub_add_cancel hle]
    rw [hsplit, mul_add, mul_comm V N, add_comm]
    omega
  refine Nat.lt_succ_iff.mp ((Nat.div_lt_iff_lt_mul hV).mpr ?_)
  refine Nat.lt_of_mul_lt_mul_right (a := D) ?_
  calc N * D ≤ V * (N + D) := hmul
    _ < V * ((N / D + 1) * D + D) := by gcongr
    _ = (N / D + 1 + 1) * V * D := by ring

/-- **The estimate of the large divisors**: the quotient by the leading 32 bits. -/
theorem estimate {N D s v : ℕ} (hN : N < 2 ^ 64) (hs : s ≤ 31) (hlow : 2 ^ 63 ≤ D * 2 ^ s) (hv : v = D * 2 ^ s / 2 ^ 32) :
    N / D ≤ N / 2 / v / 2 ^ (31 - s) ∧ N / 2 / v / 2 ^ (31 - s) ≤ N / D + 1 := by
  have hpow : 2 ^ (32 - s) * 2 ^ s = 2 ^ 32 := by rw [← pow_add]; congr 1; omega
  have hv31 : 2 ^ 31 ≤ v := by rw [hv]; omega
  have hV : N / 2 / v / 2 ^ (31 - s) = N / (v * 2 ^ (32 - s)) := by
    rw [Nat.div_div_eq_div_mul, Nat.div_div_eq_div_mul, show 32 - s = 31 - s + 1 by omega, pow_succ]
    congr 1
    ring
  -- `V` is `D` without its low bits
  have hle : v * 2 ^ (32 - s) ≤ D := by
    refine Nat.le_of_mul_le_mul_right (c := 2 ^ s) ?_ (by positivity)
    rw [mul_assoc, hpow, hv]
    exact Nat.div_mul_le_self _ _
  have hlt : D < v * 2 ^ (32 - s) + 2 ^ (32 - s) := by
    refine Nat.lt_of_mul_lt_mul_right (a := 2 ^ s) ?_
    rw [← Nat.succ_mul, mul_assoc, hpow, hv]
    omega
  have hbound : 2 ^ (s + 1) * (2 ^ (32 - s) - 1) ≤ D := by
    have hsplit : 2 ^ (s + 1) * (2 ^ (32 - s) - 1) = 2 ^ 33 - 2 ^ (s + 1) := by
      rw [Nat.mul_sub, mul_one, ← pow_add]
      congr 2
      omega
    obtain rfl | hs := hs.eq_or_lt
    · omega
    · have hmono : D * 2 ^ s ≤ D * 2 ^ 30 := by gcongr <;> omega
      exact hsplit.trans_le ((Nat.sub_le _ _).trans (by omega))
  have hpow' : 2 ^ 31 * 2 ^ (32 - s) * 2 ^ (s + 1) = 2 ^ 64 := by rw [← pow_add, ← pow_add]; congr 1; omega
  rw [hV]
  refine ⟨Nat.div_le_div_left hle (by positivity), div_le_div_add_one (by positivity) ?_ hle⟩
  calc N * (D - v * 2 ^ (32 - s)) ≤ 2 ^ 64 * (2 ^ (32 - s) - 1) := Nat.mul_le_mul hN.le (by omega)
    _ = 2 ^ 31 * 2 ^ (32 - s) * (2 ^ (s + 1) * (2 ^ (32 - s) - 1)) := by rw [← mul_assoc, hpow']
    _ ≤ v * 2 ^ (32 - s) * D := by gcongr

/-- The quotient by a divisor of 32 bits, from those of the two halves. -/
theorem div_halves (N b d : ℕ) (hd : 0 < d) : (b * (N / b % d) + N % b) / d + b * (N / b / d) = N / d := by
  have hN : N = b * (N / b % d) + N % b + d * (b * (N / b / d)) := by
    calc N = b * (N / b) + N % b := (Nat.div_add_mod N b).symm
      _ = b * (d * (N / b / d) + N / b % d) + N % b := by rw [Nat.div_add_mod (N / b) d]
      _ = _ := by ring
  conv_rhs => rw [hN, Nat.add_mul_div_left _ _ hd]

/-- The small divisors: neither of the two divisions traps. -/
theorem divl_halves (n1 n0 : BitVec 32) {d0 : BitVec 32} (hd : d0 ≠ 0#32) :
    ∃ q, divl (1#64 <<< 32 * (n1 % d0).setWidth 64 + n0.setWidth 64) d0 = some q ∧
      (q.setWidth 64 + 1#64 <<< 32 * (n1 / d0).setWidth 64).toNat = (2 ^ 32 * n1.toNat + n0.toNat) / d0.toNat := by
  have hn1 := n1.isLt
  have hn0 := n0.isLt
  have hd0 := d0.isLt
  have hpos : 0 < d0.toNat := Nat.pos_of_ne_zero fun h => hd (BitVec.eq_of_toNat_eq h)
  have hb : (1#64 <<< 32).toNat = 2 ^ 32 := rfl
  have hrem : n1.toNat % d0.toNat < d0.toNat := Nat.mod_lt _ hpos
  have hquot : n1.toNat / d0.toNat ≤ n1.toNat := Nat.div_le_self _ _
  have hsum : (1#64 <<< 32 * (n1 % d0).setWidth 64 + n0.setWidth 64).toNat =
      2 ^ 32 * (n1.toNat % d0.toNat) + n0.toNat := by
    simp only [BitVec.toNat_add, BitVec.toNat_mul, BitVec.toNat_setWidth, BitVec.toNat_umod, hb]
    omega
  have hdiv := div_halves (2 ^ 32 * n1.toNat + n0.toNat) (2 ^ 32) d0.toNat hpos
  rw [Nat.mul_add_div (by decide), Nat.div_eq_of_lt hn0, Nat.mul_add_mod, Nat.mod_eq_of_lt hn0, add_zero] at hdiv
  have hfit : (2 ^ 32 * (n1.toNat % d0.toNat) + n0.toNat) / d0.toNat < 2 ^ 32 := by
    rw [Nat.div_lt_iff_lt_mul hpos]
    nlinarith
  refine ⟨_, divl_eq hd (by rwa [hsum]), ?_⟩
  rw [← hdiv]
  simp only [BitVec.toNat_add, BitVec.toNat_mul, BitVec.toNat_setWidth, BitVec.toNat_udiv, BitVec.toNat_ofNat, hb, hsum]
  generalize (2 ^ 32 * (n1.toNat % d0.toNat) + n0.toNat) / d0.toNat = q at hfit
  generalize n1.toNat / d0.toNat = q1 at hquot
  omega

variable {d : BitVec 64}

/-- The large divisors: the estimate is made without a trap, and corrected. -/
theorem divl_large {s : ℕ} (hs : s ≤ 31) (hlow : 2 ^ 63 ≤ d.toNat * 2 ^ s) (hfit : d.toNat * 2 ^ s < 2 ^ 64)
    (hle : d.toNat ≤ n.toNat) :
    ∃ q, divl (n >>> 1) (((d <<< s) >>> 32).setWidth 32) = some q ∧
      n / d = if n - ((q >>> (31 - s)).setWidth 64 - 1#64) * d < d then (q >>> (31 - s)).setWidth 64 - 1#64
        else (q >>> (31 - s)).setWidth 64 := by
  have hn := n.isLt
  have hpos : 0 < d.toNat := by by_contra h; simp [Nat.eq_zero_of_not_pos h] at hlow
  set v := d.toNat * 2 ^ s / 2 ^ 32 with hvdef
  have hv : (((d <<< s) >>> 32).setWidth 32).toNat = v := by
    simp only [BitVec.toNat_setWidth, BitVec.toNat_ushiftRight, BitVec.toNat_shiftLeft,
      Nat.shiftLeft_eq, Nat.shiftRight_eq_div_pow]
    rw [Nat.mod_eq_of_lt hfit, Nat.mod_eq_of_lt]
    omega
  have hv31 : 2 ^ 31 ≤ v := by omega
  have hhalf : (n >>> 1).toNat = n.toNat / 2 := by simp [Nat.shiftRight_eq_div_pow]
  have hq : n.toNat / 2 / v < 2 ^ 32 := by
    rw [Nat.div_lt_iff_lt_mul (by omega)]
    omega
  have hdivl : divl (n >>> 1) (((d <<< s) >>> 32).setWidth 32) = some (BitVec.ofNat 32 (n.toNat / 2 / v)) := by
    rw [divl_eq, hhalf, hv]
    · intro h
      rw [h] at hv
      simp at hv
      omega
    · rwa [hhalf, hv]
  refine ⟨_, hdivl, ?_⟩
  obtain ⟨hlower, hupper⟩ := estimate hn hs hlow hvdef
  have hQ : ((BitVec.ofNat 32 (n.toNat / 2 / v) >>> (31 - s)).setWidth 64).toNat = n.toNat / 2 / v / 2 ^ (31 - s) := by
    simp only [BitVec.toNat_setWidth, BitVec.toNat_ushiftRight, BitVec.toNat_ofNat, Nat.shiftRight_eq_div_pow]
    rw [Nat.mod_eq_of_lt hq, Nat.mod_eq_of_lt]
    exact (Nat.div_le_self _ _).trans_lt (by omega)
  generalize (BitVec.ofNat 32 (n.toNat / 2 / v) >>> (31 - s)).setWidth 64 = q at hQ
  rw [← hQ] at hlower hupper
  have hone : 1 ≤ n.toNat / d.toNat := (Nat.one_le_div_iff hpos).mpr hle
  have hmul : (q.toNat - 1) * d.toNat ≤ n.toNat :=
    (Nat.mul_le_mul_right _ (by omega)).trans (Nat.div_mul_le_self n.toNat d.toNat)
  have hpred : (q - 1#64).toNat = q.toNat - 1 := BitVec.toNat_sub_of_le (show (1#64).toNat ≤ q.toNat from hone.trans hlower)
  have hprod : ((q - 1#64) * d).toNat = (q.toNat - 1) * d.toNat := by
    rw [BitVec.toNat_mul, hpred, Nat.mod_eq_of_lt (by omega)]
  have hdiff : (n - (q - 1#64) * d).toNat = n.toNat - (q.toNat - 1) * d.toNat := by
    rw [BitVec.toNat_sub_of_le (show ((q - 1#64) * d).toNat ≤ n.toNat by rwa [hprod]), hprod]
  have hlt : n - (q - 1#64) * d < d ↔ n.toNat < q.toNat * d.toNat := by
    rw [BitVec.lt_def, hdiff, Nat.sub_lt_iff_lt_add hmul, add_comm, ← Nat.succ_mul,
      Nat.succ_eq_add_one, Nat.sub_add_cancel (by omega)]
  rw [← Nat.div_lt_iff_lt_mul hpos] at hlt
  refine BitVec.eq_of_toNat_eq ?_
  rw [BitVec.toNat_udiv]
  split_ifs with h
  · have := hlt.mp h
    omega
  · have := mt hlt.mpr h
    omega

/-- **`udiv64` divides**, and does not trap. -/
theorem udiv64_eq (n : BitVec 64) (hd : d ≠ 0#64) : udiv64 n d = some (n / d) := by
  have hn := n.isLt
  have hd' := d.isLt
  have hhigh : (d >>> 32).toNat = d.toNat / 2 ^ 32 := by rw [BitVec.toNat_ushiftRight, Nat.shiftRight_eq_div_pow]
  have hzero : d >>> 32 = 0#64 ↔ d.toNat < 2 ^ 32 := by
    rw [← BitVec.toNat_inj, hhigh, BitVec.toNat_ofNat]
    omega
  unfold udiv64
  split_ifs with hsmall hlt
  · rw [hzero] at hsmall
    have hd0 : (d.setWidth 32).toNat = d.toNat := by rw [BitVec.toNat_setWidth, Nat.mod_eq_of_lt hsmall]
    have hne : d.setWidth 32 ≠ 0#32 := fun h => hd (BitVec.eq_of_toNat_eq (by rw [← hd0, h]; rfl))
    obtain ⟨q, hq, hdiv⟩ := divl_halves ((n >>> 32).setWidth 32) (n.setWidth 32) hne
    simp only [hq]
    refine congrArg some (BitVec.eq_of_toNat_eq (hdiv.trans ?_))
    rw [hd0, BitVec.toNat_udiv]
    congr 1
    simp [Nat.shiftRight_eq_div_pow]
    omega
  · exact congrArg some (BitVec.eq_of_toNat_eq (by simp [Nat.div_eq_of_lt hlt]))
  · rw [hzero] at hsmall
    have hd1 : ((d >>> 32).setWidth 32).toNat = d.toNat / 2 ^ 32 := by
      rw [BitVec.toNat_setWidth, hhigh, Nat.mod_eq_of_lt (by omega)]
    obtain ⟨hlow, hfit⟩ := nlz_spec (x := (d >>> 32).setWidth 32) fun h => by
      rw [← BitVec.toNat_inj, hd1, BitVec.toNat_ofNat] at h
      omega
    rw [hd1] at hlow hfit
    dsimp only
    generalize nlz ((d >>> 32).setWidth 32) = s at hlow hfit ⊢
    have hs : s ≤ 31 := by
      by_contra hs
      have : 2 ^ 32 ≤ d.toNat / 2 ^ 32 * 2 ^ s :=
        Nat.le_mul_of_pos_left _ (by omega) |>.trans' (Nat.pow_le_pow_right (by decide) (by omega))
      omega
    have hpow : 2 ^ (32 - s) * 2 ^ s = 2 ^ 32 := by rw [← pow_add]; congr 1; omega
    have hd1' : d.toNat / 2 ^ 32 < 2 ^ (32 - s) := Nat.lt_of_mul_lt_mul_right (a := 2 ^ s) (by rwa [hpow])
    have hd64 : d.toNat * 2 ^ s < 2 ^ 64 := by
      calc d.toNat * 2 ^ s < 2 ^ (32 - s) * 2 ^ 32 * 2 ^ s := by
            gcongr
            rwa [← Nat.div_lt_iff_lt_mul (by decide)]
        _ = 2 ^ (32 - s) * 2 ^ s * 2 ^ 32 := by ring
        _ = 2 ^ 64 := by rw [hpow]; rfl
    have hd63 : 2 ^ 63 ≤ d.toNat * 2 ^ s := by
      calc 2 ^ 63 = 2 ^ 31 * 2 ^ 32 := rfl
        _ ≤ d.toNat / 2 ^ 32 * 2 ^ s * 2 ^ 32 := by gcongr
        _ = d.toNat / 2 ^ 32 * 2 ^ 32 * 2 ^ s := by ring
        _ ≤ d.toNat * 2 ^ s := by gcongr; exact Nat.div_mul_le_self _ _
    obtain ⟨q, hq, hdiv⟩ := divl_large hs hd63 hd64 (BitVec.not_lt.mp hlt)
    rw [hq, hdiv]
    rfl

/-! ### Signed division -/

theorem sdiv64_eq (n : BitVec 64) (hd : d ≠ 0#64) : sdiv64 n d = some (n.sdiv d) := by
  have hneg : -d ≠ 0#64 := by simpa using hd
  simp only [sdiv64, BitVec.sdiv_eq, BitVec.msb_eq_toInt, ← not_lt]
  by_cases hn : n.toInt < 0 <;> by_cases hd' : d.toInt < 0 <;> simp [hn, hd', udiv64_eq, hd, hneg]

theorem sdiv_toInt (h : n.toInt ≠ -2 ^ 63 ∨ d.toInt ≠ -1) : (n.sdiv d).toInt = n.toInt.tdiv d.toInt :=
  BitVec.toInt_sdiv_of_ne_or_ne n d (h.imp (by rintro h rfl; exact h rfl) (by rintro h rfl; exact h rfl))

/-- **The quotients are right**: `__udivdi3` rounds down and `__divdi3` towards zero, and neither
traps. -/
theorem quotients_correct (n d : BitVec 64) (hd : d ≠ 0#64) :
    (∃ q, udivdi3 n d = some q ∧ q.toNat = n.toNat / d.toNat) ∧
      (n.toInt ≠ -2 ^ 63 ∨ d.toInt ≠ -1 → ∃ q, divdi3 n d = some q ∧ q.toInt = n.toInt.tdiv d.toInt) :=
  ⟨⟨_, udiv64_eq n hd, BitVec.toNat_udiv⟩, fun h => ⟨_, sdiv64_eq n hd, sdiv_toInt h⟩⟩

/-- A large divisor, and a negative number. -/
theorem quotients_correct_large :
    (∃ q, udivdi3 0xFFFFFFFFFFFFFFFF#64 0x100000001#64 = some q ∧ q.toNat = 0xFFFFFFFF) ∧
      ∃ q, divdi3 (-7#64) 2#64 = some q ∧ q.toInt = -3 :=
  ⟨(quotients_correct _ _ (by decide)).1, (quotients_correct (-7#64) 2#64 (by decide)).2 (by decide)⟩

/-! ### Remainders -/

theorem umoddi3_eq (n : BitVec 64) (hd : d ≠ 0#64) :
    ∃ r, umoddi3 n d = some r ∧ r.toNat = n.toNat % d.toNat % 2 ^ 32 := by
  have hrem : n - d * (n / d) = n % d := by
    have hmul : d.toNat * (n.toNat / d.toNat) ≤ n.toNat := Nat.mul_div_le _ _
    have hprod : (d * (n / d)).toNat = d.toNat * (n.toNat / d.toNat) := by
      rw [BitVec.toNat_mul, BitVec.toNat_udiv, Nat.mod_eq_of_lt (hmul.trans_lt n.isLt)]
    refine BitVec.eq_of_toNat_eq ?_
    rw [BitVec.toNat_sub_of_le (show (d * (n / d)).toNat ≤ n.toNat by rwa [hprod]), hprod,
      BitVec.toNat_umod, Nat.mod_eq_sub]
  refine ⟨_, by rw [umoddi3, umod64, udiv64_eq n hd]; rfl, ?_⟩
  rw [hrem, BitVec.toNat_setWidth, BitVec.toNat_setWidth, BitVec.toNat_umod]
  omega

theorem moddi3_eq (hd : d ≠ 0#64) (h : n.toInt ≠ -2 ^ 63 ∨ d.toInt ≠ -1) :
    ∃ r, moddi3 n d = some r ∧ r.toInt = (n.toInt.tmod d.toInt).bmod (2 ^ 32) := by
  have hrem : (n - d * n.sdiv d).toInt = (n.toInt.tmod d.toInt).bmod (2 ^ 64) := by
    rw [BitVec.toInt_sub, BitVec.toInt_mul, sdiv_toInt h, Int.sub_bmod_bmod, ← Int.tmod_def]
  refine ⟨_, by rw [moddi3, smod64, sdiv64_eq n hd]; rfl, ?_⟩
  rw [BitVec.toInt_signExtend_of_le (by decide), BitVec.toInt_setWidth,
    ← Int.bmod_bmod_of_dvd (n := 2 ^ 32) (m := 2 ^ 64) (by decide),
    ← BitVec.toInt_eq_toNat_bmod, hrem, Int.bmod_bmod_of_dvd (by decide)]

/-- **The remainders are right exactly when they fit in 32 bits.** -/
theorem remainders_characterised (n d : BitVec 64) (hd : d ≠ 0#64) :
    (∃ q r, udivdi3 n d = some q ∧ umoddi3 n d = some r ∧ (r.toNat = n.toNat % d.toNat ↔ n.toNat % d.toNat < 2 ^ 32) ∧
        (n.toNat = d.toNat * q.toNat + r.toNat ↔ n.toNat % d.toNat < 2 ^ 32)) ∧
      (n.toInt ≠ -2 ^ 63 ∨ d.toInt ≠ -1 → ∃ q r, divdi3 n d = some q ∧ moddi3 n d = some r ∧
        (r.toInt = n.toInt - d.toInt * n.toInt.tdiv d.toInt ↔ -2 ^ 31 ≤ n.toInt.tmod d.toInt ∧
        n.toInt.tmod d.toInt < 2 ^ 31) ∧
        (n.toInt = d.toInt * q.toInt + r.toInt ↔ -2 ^ 31 ≤ n.toInt.tmod d.toInt ∧ n.toInt.tmod d.toInt < 2 ^ 31)) := by
  refine ⟨?_, fun h => ?_⟩
  · obtain ⟨r, hr, hrem⟩ := umoddi3_eq n hd
    have hsplit := Nat.div_add_mod n.toNat d.toNat
    refine ⟨_, r, udiv64_eq n hd, hr, ?_, ?_⟩
    · omega
    · rw [BitVec.toNat_udiv]
      omega
  · obtain ⟨r, hr, hrem⟩ := moddi3_eq hd h
    have hsplit := Int.mul_tdiv_add_tmod n.toInt d.toInt
    have hfit : r.toInt = n.toInt.tmod d.toInt ↔ -2 ^ 31 ≤ n.toInt.tmod d.toInt ∧ n.toInt.tmod d.toInt < 2 ^ 31 := by
      rw [hrem, Int.bmod_def]
      omega
    refine ⟨_, r, sdiv64_eq n hd, hr, ?_, ?_⟩
    · rw [← hfit]
      omega
    · rw [← hfit, sdiv_toInt h]
      omega

/-- A remainder that fits, with a large divisor. -/
theorem remainders_characterised_large :
    ∃ q r, udivdi3 0x100000003#64 0x100000001#64 = some q ∧
      umoddi3 0x100000003#64 0x100000001#64 = some r ∧ r.toNat = 2 := by
  obtain ⟨q, r, hq, hr, hrem, -⟩ := (remainders_characterised 0x100000003#64 0x100000001#64 (by decide)).1
  exact ⟨q, r, hq, hr, hrem.mpr (by decide)⟩

/-- The remainder `2 ^ 32` loses its leading bit. -/
theorem remainder_truncated :
    umoddi3 0x100000000#64 0x100000001#64 = some 0#64 ∧ (0x100000000#64).toNat % (0x100000001#64).toNat = 2 ^ 32 ∧
      moddi3 0x100000000#64 0x100000001#64 = some 0#64 ∧ (0x100000000#64).toInt.tmod (0x100000001#64).toInt = 2 ^ 32 := by
  decide

end Pintos.Lib.Arithmetic
