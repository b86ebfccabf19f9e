import Mathlib.Tactic

/-!
# Backoff (`internal/derivation/retry.go`)

`backoffDelay` doubles the delay once for each attempt but the first and stops at the maximum, which
it compares with each doubled delay. A base above the maximum is therefore returned at the first
attempt, and a doubling that leaves the range of `time.Duration` is negative and passes. The delay
is the intended one at all attempts exactly if neither can happen (`exponential_iff`).
-/

namespace Aegis.Derivation

/-- The loop of `backoffDelay`, with `n` doublings to go. -/
def backoffLoop (max : Int64) : Nat → Int64 → Int64
  | 0, delay => delay
  | n + 1, delay => if delay * 2 > max then max else backoffLoop max n (delay * 2)

def backoffDelay (attempt : Nat) (base max : Int64) : Int64 := backoffLoop max (attempt - 1) base

/-- The formula, and what follows from it. -/
structure Exponential (base max : Int64) : Prop where
  formula : ∀ attempt ≥ 1,
    (backoffDelay attempt base max).toInt = min (base.toInt * 2 ^ (attempt - 1)) max.toInt
  positive : ∀ attempt ≥ 1, 0 < (backoffDelay attempt base max).toInt
  bounded : ∀ attempt ≥ 1, backoffDelay attempt base max ≤ max
  monotone : ∀ attempt ≥ 1, ∀ attempt' ≥ attempt,
    backoffDelay attempt base max ≤ backoffDelay attempt' base max

variable {base max : Int64}

/-- A doubling that leaves the range gives a negative delay. -/
theorem toInt_double (h : 0 < base.toInt) :
    (base * 2).toInt = base.toInt * 2 - if base.toInt * 2 < 2 ^ 63 then 0 else 2 ^ 64 := by
  have hlt := base.toInt_lt
  rw [Int64.toInt_mul, show Int64.toInt 2 = 2 from rfl, Int.bmod_def]
  grind

theorem double_mul_pow (h : 0 < base.toInt) (hlt : base.toInt * 2 < 2 ^ 63) (n : Nat) :
    (base * 2).toInt * 2 ^ n = base.toInt * 2 ^ (n + 1) := by
  rw [toInt_double h, if_pos hlt, sub_zero, pow_succ', mul_assoc]

theorem le_mul_pow {a : Int} (h : 0 < a) (n : Nat) : a ≤ a * 2 ^ n :=
  le_mul_of_one_le_right h.le (one_le_pow₀ (by decide))

/-- What is computed if no doubling within the maximum leaves the range. -/
theorem backoffLoop_eq_min (n : Nat) (hpos : 0 < base.toInt) (hle : base ≤ max)
    (hrange : ∀ n, base.toInt * 2 ^ n ≤ max.toInt → base.toInt * 2 ^ (n + 1) < 2 ^ 63) :
    (backoffLoop max n base).toInt = min (base.toInt * 2 ^ n) max.toInt := by
  rw [Int64.le_iff_toInt_le] at hle
  induction n generalizing base with
  | zero => simpa [backoffLoop] using hle
  | succ n ih =>
    have hpow := double_mul_pow hpos (by simpa using hrange 0 (by simpa using hle))
    have hpos' : 0 < (base * 2).toInt := by
      have := hpow 0
      omega
    rw [backoffLoop, ← hpow]
    split
    · next hcap =>
      have hge := le_mul_pow hpos' n
      rw [gt_iff_lt, Int64.lt_iff_toInt_lt] at hcap
      rw [min_eq_right (by omega)]
    · next hcap =>
      rw [gt_iff_lt, Int64.lt_iff_toInt_lt, not_lt] at hcap
      refine ih hpos' hcap fun k hk => ?_
      rw [hpow] at hk ⊢
      exact hrange (k + 1) hk

/-- Delays that are positive at all attempts come from doublings that stay in the range. -/
theorem lt_of_backoffLoop_pos (hpos : 0 < base.toInt)
    (hloop : ∀ n, 0 < (backoffLoop max n base).toInt) (n : Nat)
    (hle : base.toInt * 2 ^ n ≤ max.toInt) : base.toInt * 2 ^ (n + 1) < 2 ^ 63 := by
  have hmax := max.toInt_lt
  induction n generalizing base with
  | zero =>
    by_contra hge
    have hone := hloop 1
    grind [backoffLoop, toInt_double, Int64.lt_iff_toInt_lt]
  | succ n ih =>
    have hle' := le_mul_pow (show 0 < base.toInt * 2 by omega) n
    rw [mul_assoc, ← pow_succ'] at hle'
    have hpow := double_mul_pow hpos (by omega)
    have hdouble := hpow 0
    have hcap : ¬ base * 2 > max := by
      rw [gt_iff_lt, Int64.lt_iff_toInt_lt]
      omega
    rw [← hpow] at hle ⊢
    refine ih (by omega) (fun k => ?_) hle
    have hnext := hloop (k + 1)
    rwa [backoffLoop, if_neg hcap] at hnext

/-- **The delay is exponential** exactly if the base is within the maximum and no doubling of a
delay within the maximum leaves the range. -/
theorem exponential_iff (hbase : 0 < base.toInt) (hmax : 0 < max.toInt) :
    Exponential base max ↔ base ≤ max ∧
      ∀ n, base.toInt * 2 ^ n ≤ max.toInt → base.toInt * 2 ^ (n + 1) < 2 ^ 63 := by
  constructor
  · intro h
    exact ⟨h.bounded 1 le_rfl,
      lt_of_backoffLoop_pos hbase fun n => h.positive (n + 1) (Nat.le_add_left 1 n)⟩
  · rintro ⟨hle, hrange⟩
    have hformula (attempt : Nat) : (backoffDelay attempt base max).toInt =
        min (base.toInt * 2 ^ (attempt - 1)) max.toInt :=
      backoffLoop_eq_min _ hbase hle hrange
    refine ⟨fun n _ => hformula n, fun n _ => ?_, fun n _ => ?_, fun n _ n' hn => ?_⟩
    · rw [hformula]
      exact lt_min (by positivity) hmax
    · rw [Int64.le_iff_toInt_le, hformula]
      exact min_le_right _ _
    · rw [Int64.le_iff_toInt_le, hformula, hformula]
      have hpow : (2 : Int) ^ (n - 1) ≤ 2 ^ (n' - 1) :=
        pow_le_pow_right₀ (by decide) (Nat.sub_le_sub_right hn 1)
      exact min_le_min_right _ (mul_le_mul_of_nonneg_left hpow hbase.le)

theorem exponential_oneTwo : Exponential 1 2 :=
  (exponential_iff (by decide) (by decide)).2 ⟨by decide, fun n hn => by
    have : (2 : Int) ^ n ≤ 2 := by simpa using hn
    grind⟩

/-- A base above the maximum is the delay before the second attempt, and half of the range doubled
is negative. -/
theorem backoffDelay_beyond :
    backoffDelay 1 2 1 = 2 ∧
      backoffDelay 2 4611686018427387904 4611686018427387904 = -9223372036854775808 :=
  ⟨by decide, by decide⟩

end Aegis.Derivation
