import Mathlib.Data.Int.Log
import Mathlib.Tactic

/-!
# Double-precision numbers

Rounding of rationals to 53 significant bits, to the nearest and to the even one of two, and the
arithmetic on top of it, with infinities and not-a-number. The two zeros are one here: nothing in
this module tells them apart.

Rounding is monotone (`nearest_mono`) and leaves alone what has 53 bits (`nearest_of_bits`). So it
keeps a number on its side of any such bound, and that is how the comparisons of rounded numbers are
read below: `Number.AtLeast` and `Number.AtMost` are bounds that rounding and sums respect.
-/

namespace Aegis

variable {m n : ℤ}

namespace Double

/-! ## Rounding -/

/-- The nearest integer, and of two the even one. -/
def roundEven (x : ℚ) : ℤ :=
  if x - ⌊x⌋ < 1 / 2 then ⌊x⌋
  else if 1 / 2 < x - ⌊x⌋ then ⌊x⌋ + 1
  else if ⌊x⌋ % 2 = 0 then ⌊x⌋
  else ⌊x⌋ + 1

/-- The exponent of the last bit of a positive number; the smallest numbers share theirs. -/
def exponent (x : ℚ) : ℤ := max (-1074) (Int.log 2 x - 52)

/-- Rounding of a number that is not negative. -/
def magnitude (x : ℚ) : ℚ := roundEven (x / 2 ^ exponent x) * 2 ^ exponent x

/-- Rounding, as if there were no greatest number. -/
def nearest (x : ℚ) : ℚ := if x < 0 then -magnitude (-x) else magnitude x

theorem floor_le_roundEven (x : ℚ) : ⌊x⌋ ≤ roundEven x := by
  unfold roundEven
  split_ifs <;> omega

theorem roundEven_le (x : ℚ) : roundEven x ≤ ⌊x⌋ + 1 := by
  unfold roundEven
  split_ifs <;> omega

@[simp] theorem roundEven_intCast (n : ℤ) : roundEven n = n := by
  simp [roundEven]

variable {y : ℚ} {k : ℤ}

theorem roundEven_mono (h : x ≤ y) : roundEven x ≤ roundEven y := by
  rcases (Int.floor_le_floor h).lt_or_eq with hlt | heq
  · exact (roundEven_le x).trans ((Int.add_one_le_iff.2 hlt).trans (floor_le_roundEven y))
  · -- in one unit interval, the fractions decide
    unfold roundEven
    rw [heq]
    split_ifs <;> first | omega | linarith

theorem magnitude_nonneg (h : 0 ≤ x) : 0 ≤ magnitude x := by
  have hle : (0 : ℤ) ≤ roundEven (x / 2 ^ exponent x) :=
    (Int.floor_nonneg.2 (by positivity)).trans (floor_le_roundEven _)
  have hcast : (0 : ℚ) ≤ roundEven (x / 2 ^ exponent x) := by exact_mod_cast hle
  unfold magnitude
  positivity

/-- A multiple of a power of two is a multiple of any smaller one. -/
theorem eq_intCast_of_le (h : j ≤ k) :
    (m * 2 ^ k : ℚ) / 2 ^ j = ((m * 2 ^ (k - j).toNat : ℤ) : ℚ) := by
  have hk : (2 : ℚ) ^ k = 2 ^ (k - j).toNat * 2 ^ j := by
    rw [← zpow_natCast, ← zpow_add₀ two_ne_zero, Int.toNat_of_nonneg (by omega), sub_add_cancel]
  push_cast
  rw [hk, ← mul_assoc, mul_div_assoc, div_self (by positivity), mul_one]

/-- Rounding at one exponent is monotone, -/
theorem roundEven_mul_mono (h : x ≤ y) (j : ℤ) :
    (roundEven (x / 2 ^ j) * 2 ^ j : ℚ) ≤ roundEven (y / 2 ^ j) * 2 ^ j := by
  have hround := roundEven_mono (div_le_div_of_nonneg_right h (zpow_nonneg zero_le_two j))
  have hcast : (roundEven (x / 2 ^ j) : ℚ) ≤ roundEven (y / 2 ^ j) := by exact_mod_cast hround
  gcongr

/-- and leaves alone the multiples of a power of two that is not smaller. -/
theorem roundEven_mul_of_le (h : j ≤ k) :
    (roundEven (m * 2 ^ k / 2 ^ j) * 2 ^ j : ℚ) = m * 2 ^ k := by
  rw [eq_intCast_of_le h, roundEven_intCast, ← eq_intCast_of_le h,
    div_mul_cancel₀ _ (by positivity)]

/-- Rounding keeps a number below a multiple of its last bit, -/
theorem magnitude_le (hk : exponent x ≤ k) (h : x ≤ m * 2 ^ k) : magnitude x ≤ m * 2 ^ k :=
  (roundEven_mul_mono h _).trans_eq (roundEven_mul_of_le hk)

/-- and above one. -/
theorem le_magnitude (hk : exponent x ≤ k) (h : m * 2 ^ k ≤ x) : m * 2 ^ k ≤ magnitude x :=
  (roundEven_mul_of_le hk).symm.trans_le (roundEven_mul_mono h _)

/-- A number is below the power of two that its exponent gives it room for. -/
theorem lt_of_exponent_lt (h : exponent x < k) : x < 2 ^ (k + 52) := by
  have hlog : Int.log 2 x + 1 ≤ k + 52 := by
    have := le_max_right (-1074) (Int.log 2 x - 52)
    unfold exponent at h
    omega
  calc x < (2 : ℕ) ^ (Int.log 2 x + 1) := Int.lt_zpow_succ_log_self one_lt_two x
    _ ≤ 2 ^ (k + 52) := by
      push_cast
      exact zpow_le_zpow_right₀ one_le_two hlog

/-- A number with more than the smallest exponent has all its 53 bits. -/
theorem le_of_lt_exponent (hx : 0 < x) (h : -1074 < exponent x) : 2 ^ (exponent x + 52) ≤ x := by
  have hexp : exponent x + 52 = Int.log 2 x := by
    unfold exponent at h ⊢
    omega
  rw [hexp]
  exact_mod_cast Int.zpow_log_le_self one_lt_two hx

theorem magnitude_mono (hx : 0 ≤ x) (h : x ≤ y) : magnitude x ≤ magnitude y := by
  rcases hx.eq_or_lt with rfl | hpos
  · have hzero : magnitude 0 = 0 := by
      have := roundEven_intCast 0
      simp_all [magnitude]
    rw [hzero]
    exact magnitude_nonneg h
  have hexp : exponent x ≤ exponent y :=
    max_le_max le_rfl (sub_le_sub_right (Int.log_mono_right hpos h) _)
  rcases hexp.eq_or_lt with heq | hlt
  · unfold magnitude
    rw [heq]
    exact roundEven_mul_mono h _
  · -- the least number with the exponent of `y` lies in between
    have hle : (2 : ℚ) ^ (exponent y + 52) ≤ y :=
      le_of_lt_exponent (hpos.trans_le h) ((le_max_left _ _).trans_lt hlt)
    have hone : (2 : ℚ) ^ (exponent y + 52) = ((2 ^ 52 : ℤ) : ℚ) * 2 ^ exponent y := by
      rw [zpow_add₀ two_ne_zero, mul_comm]
      norm_num
    calc magnitude x
        ≤ ((2 ^ 52 : ℤ) : ℚ) * 2 ^ exponent y :=
          magnitude_le hlt.le (hone ▸ (lt_of_exponent_lt hlt).le)
      _ ≤ magnitude y := le_magnitude le_rfl (hone ▸ hle)

/-- **Rounding is monotone.** -/
theorem nearest_mono (h : x ≤ y) : nearest x ≤ nearest y := by
  unfold nearest
  split_ifs with hx hy hy
  · exact neg_le_neg (magnitude_mono (by linarith) (by linarith))
  · have hnonneg : 0 ≤ magnitude (-x) := magnitude_nonneg (by linarith)
    have hnonneg' : 0 ≤ magnitude y := magnitude_nonneg (by linarith)
    linarith
  · exact absurd (h.trans_lt hy) hx
  · exact magnitude_mono (by linarith) h

theorem magnitude_of_bits (hm : 0 ≤ m) (hlt : m < 2 ^ 53) (hk : -1074 ≤ k) :
    magnitude (m * 2 ^ k) = m * 2 ^ k := by
  rcases hm.eq_or_lt with rfl | hpos
  · have := roundEven_intCast 0
    simp_all [magnitude]
  have hexp : exponent (m * 2 ^ k) ≤ k := by
    by_contra hgt
    have hx : (0 : ℚ) < m * 2 ^ k := by
      have : (0 : ℚ) < m := by exact_mod_cast hpos
      positivity
    have hle := le_of_lt_exponent hx (by omega)
    have hroom : (2 : ℚ) ^ (k + 53) ≤ 2 ^ (exponent (m * 2 ^ k) + 52) :=
      zpow_le_zpow_right₀ one_le_two (by omega)
    have hm : (m : ℚ) < 2 ^ (53 : ℤ) := by exact_mod_cast hlt
    have hbits : (m * 2 ^ k : ℚ) < 2 ^ (k + 53) := by
      rw [zpow_add₀ two_ne_zero, mul_comm]
      gcongr
    linarith
  exact le_antisymm (magnitude_le hexp le_rfl) (le_magnitude hexp le_rfl)

/-- **A number of 53 bits is left alone.** -/
theorem nearest_of_bits (hm : |m| < 2 ^ 53) (hk : -1074 ≤ k) : nearest (m * 2 ^ k) = m * 2 ^ k := by
  obtain ⟨hlo, hhi⟩ := abs_lt.1 hm
  have hpow : (0 : ℚ) < 2 ^ k := by positivity
  unfold nearest
  split_ifs with hneg
  · have hm0 : m ≤ 0 := by
      by_contra hpos
      have : (0 : ℚ) < m := by exact_mod_cast not_le.1 hpos
      have := mul_pos this hpow
      linarith
    have hrw : -(m * 2 ^ k : ℚ) = ((-m : ℤ) : ℚ) * 2 ^ k := by push_cast; ring
    rw [hrw, magnitude_of_bits (by omega) (by omega) hk]
    push_cast
    ring
  · have hm0 : 0 ≤ m := by
      have : (0 : ℚ) ≤ m := nonneg_of_mul_nonneg_left (not_lt.1 hneg) hpow
      exact_mod_cast this
    exact magnitude_of_bits hm0 hhi hk

theorem nearest_intCast (h : |n| < 2 ^ 53) : nearest n = n := by
  have := nearest_of_bits h (k := 0) (by norm_num)
  simpa using this

/-- The greatest number. -/
def greatest : ℚ := (2 ^ 53 - 1) * 2 ^ 971

end Double

/-! ## Numbers -/

/-- A double-precision number. -/
inductive Number
  | nan
  | infinity (negative : Bool)
  | finite (x : ℚ)
  deriving DecidableEq

namespace Number

open Double

/-- The number nearest to a rational. -/
def ofRat (x : ℚ) : Number :=
  if greatest < nearest x then .infinity false
  else if nearest x < -greatest then .infinity true
  else .finite (nearest x)

/-- The number nearest to an integer. -/
def ofInt (n : ℤ) : Number := ofRat n

def add : Number → Number → Number
  | .finite x, .finite y => ofRat (x + y)
  | .infinity a, .infinity b => if a = b then .infinity a else .nan
  | .infinity a, .finite _ => .infinity a
  | .finite _, .infinity b => .infinity b
  | _, _ => .nan

/-- Division by a rational that is not zero. -/
def div : Number → ℚ → Number
  | .finite x, d => ofRat (x / d)
  | .infinity a, d => .infinity (a != decide (d < 0))
  | .nan, _ => .nan

/-- The greatest integer that is not above. -/
def floor : Number → Number
  | .finite x => ofInt ⌊x⌋
  | x => x

def lt : Number → Number → Bool
  | .finite x, .finite y => x < y
  | .infinity a, .infinity b => a && !b
  | .infinity a, .finite _ => a
  | .finite _, .infinity b => !b
  | _, _ => false

/-- Equality, where not-a-number is not equal to itself. -/
def strictEq : Number → Number → Bool
  | .nan, _ => false
  | x, y => x = y

/-- The integer that the number is, if it is one. -/
def integer? : Number → Option ℤ
  | .finite x => if x.den = 1 then some x.num else none
  | _ => none

/-! ## Bounds -/

/-- A bound from below. -/
def AtLeast (c : ℤ) : Number → Prop
  | .finite x => c ≤ x
  | .infinity negative => negative = false
  | .nan => False

/-- A bound from above. -/
def AtMost (c : ℤ) : Number → Prop
  | .finite x => x ≤ c
  | .infinity negative => negative = true
  | .nan => False

/-- An integer that is small enough to be exact. -/
def Safe (n : ℤ) : Prop := |n| < 2 ^ 53

theorem safe_iff : Safe n ↔ -2 ^ 53 < n ∧ n < 2 ^ 53 := abs_lt

theorem lt_greatest : (2 ^ 53 : ℚ) < greatest := by
  have hpow : (2 : ℚ) ≤ 2 ^ 971 := le_self_pow₀ one_le_two (by decide)
  unfold greatest
  generalize (2 : ℚ) ^ 971 = p at hpow
  linarith

theorem greatest_gt_of_safe (h : Safe n) : -greatest < n ∧ (n : ℚ) < greatest := by
  obtain ⟨hlo, hhi⟩ := safe_iff.1 h
  have hlo' : (-2 ^ 53 : ℚ) < n := by exact_mod_cast hlo
  have hhi' : (n : ℚ) < 2 ^ 53 := by exact_mod_cast hhi
  have hgreat := lt_greatest
  constructor <;> linarith

theorem ofInt_of_safe (h : Safe n) : ofInt n = .finite n := by
  obtain ⟨hlo, hhi⟩ := greatest_gt_of_safe h
  rw [ofInt, ofRat, nearest_intCast h, if_neg hhi.not_gt, if_neg hlo.not_gt]

variable {c d : ℤ} {x : Number}

/-- Rounding keeps a number above an exact bound, -/
theorem atLeast_ofRat {x : ℚ} (hc : Safe c) (h : c ≤ x) : AtLeast c (ofRat x) := by
  have hround : (c : ℚ) ≤ nearest x := nearest_intCast hc ▸ nearest_mono h
  have hgreat := (greatest_gt_of_safe hc).1
  unfold ofRat
  split_ifs with h₁ h₂
  · rfl
  · exact absurd (hgreat.trans_le hround) h₂.not_gt
  · exact hround

/-- and below one. -/
theorem atMost_ofRat {x : ℚ} (hc : Safe c) (h : x ≤ c) : AtMost c (ofRat x) := by
  have hround : nearest x ≤ (c : ℚ) := nearest_intCast hc ▸ nearest_mono h
  have hgreat := (greatest_gt_of_safe hc).2
  unfold ofRat
  split_ifs with h₁ h₂
  · exact absurd (hround.trans_lt hgreat) h₁.not_gt
  · rfl
  · exact hround

theorem atLeast_ofInt (hc : Safe c) (h : c ≤ n) : AtLeast c (ofInt n) :=
  atLeast_ofRat hc (by exact_mod_cast h)

theorem atMost_ofInt (hc : Safe c) (h : n ≤ c) : AtMost c (ofInt n) :=
  atMost_ofRat hc (by exact_mod_cast h)

theorem AtLeast.add (h : AtLeast c x) (hsum : Safe (c + d)) :
    AtLeast (c + d) (x.add (.finite d)) := by
  cases x with
  | nan => exact h.elim
  | infinity negative => exact h
  | finite x =>
    refine atLeast_ofRat (x := x + d) hsum ?_
    push_cast
    exact add_le_add_left h _

theorem AtMost.add (h : AtMost c x) (hsum : Safe (c + d)) : AtMost (c + d) (x.add (.finite d)) := by
  cases x with
  | nan => exact h.elim
  | infinity negative => exact h
  | finite x =>
    refine atMost_ofRat (x := x + d) hsum ?_
    push_cast
    exact add_le_add_left h _

theorem lt_of_atLeast (h : AtLeast c x) (hn : n < c) : lt (.finite n) x = true := by
  have hcast : (n : ℚ) < c := by exact_mod_cast hn
  cases x with
  | nan => exact h.elim
  | infinity negative => exact congrArg (!·) h
  | finite x => exact decide_eq_true (hcast.trans_le h)

theorem not_lt_of_atLeast (h : AtLeast c x) (hn : n ≤ c) : lt x (.finite n) = false := by
  have hcast : (n : ℚ) ≤ c := by exact_mod_cast hn
  cases x with
  | nan => exact h.elim
  | infinity negative => exact h
  | finite x => exact decide_eq_false (hcast.trans h).not_gt

theorem lt_of_atMost (h : AtMost c x) (hn : c < n) : lt x (.finite n) = true := by
  have hcast : (c : ℚ) < n := by exact_mod_cast hn
  cases x with
  | nan => exact h.elim
  | infinity negative => exact h
  | finite x => exact decide_eq_true (lt_of_le_of_lt h hcast)

theorem not_lt_of_atMost (h : AtMost c x) (hn : c ≤ n) : lt (.finite n) x = false := by
  have hcast : (c : ℚ) ≤ n := by exact_mod_cast hn
  cases x with
  | nan => exact h.elim
  | infinity negative => exact congrArg (!·) h
  | finite x => exact decide_eq_false (le_trans h hcast).not_gt

/-! ## Exact comparisons -/

theorem integer?_eq_some : x.integer? = some n ↔ x = .finite n := by
  cases x with
  | nan => exact iff_of_false nofun nofun
  | infinity negative => exact iff_of_false nofun nofun
  | finite x =>
    simp only [integer?, Number.finite.injEq]
    constructor
    · intro h
      split_ifs at h with hden
      cases h
      exact ((Rat.den_eq_one_iff x).1 hden).symm
    · rintro rfl
      rw [if_pos (Rat.den_intCast n), Rat.num_intCast]

variable {e : ℤ}

/-- An integer that is rounded to a small one is that one. -/
theorem eq_of_ofInt_eq (hpred : Safe (n - 1)) (hsucc : Safe (n + 1)) (h : ofInt e = .finite n) :
    e = n := by
  rcases lt_trichotomy e n with hlt | heq | hgt
  · have hle : AtMost (n - 1) (ofInt e) := atMost_ofInt hpred (by omega)
    rw [h] at hle
    have hlt : (n : ℚ) ≤ (n - 1 : ℤ) := hle
    have : n ≤ n - 1 := by exact_mod_cast hlt
    omega
  · exact heq
  · have hle : AtLeast (n + 1) (ofInt e) := atLeast_ofInt hsucc (by omega)
    rw [h] at hle
    have hlt : ((n + 1 : ℤ) : ℚ) ≤ n := hle
    have : n + 1 ≤ n := by exact_mod_cast hlt
    omega

theorem strictEq_ofInt (hpred : Safe (n - 1)) (hsafe : Safe n) (hsucc : Safe (n + 1)) :
    strictEq (.finite n) (ofInt e) = true ↔ n = e := by
  rw [strictEq, decide_eq_true_eq]
  · constructor
    · intro h
      exact (eq_of_ofInt_eq hpred hsucc h.symm).symm
    · rintro rfl
      exact (ofInt_of_safe hsafe).symm
  · nofun

/-- A sum with an integer that may not be exact is on the right side of a small integer. -/
theorem lt_add_ofInt (hsafe : Safe n) (hsucc : Safe (n + 1)) (hdiff : Safe (n - w))
    (hdiff' : Safe (n + 1 - w)) :
    lt (.finite n) ((ofInt s).add (.finite w)) = true ↔ n < s + w := by
  by_cases h : n < s + w
  · have hsum := (atLeast_ofInt hdiff' (show n + 1 - w ≤ s by omega)).add (d := w)
      (by rwa [sub_add_cancel])
    rw [sub_add_cancel] at hsum
    exact iff_of_true (lt_of_atLeast hsum (by omega)) h
  · have hsum := (atMost_ofInt hdiff (show s ≤ n - w by omega)).add (d := w)
      (by rwa [sub_add_cancel])
    rw [sub_add_cancel] at hsum
    rw [not_lt_of_atMost hsum le_rfl]
    exact iff_of_false Bool.false_ne_true h

theorem ofInt_lt (hpred : Safe (n - 1)) (hsafe : Safe n) :
    lt (ofInt e) (.finite n) = true ↔ e < n := by
  by_cases h : e < n
  · exact iff_of_true (lt_of_atMost (atMost_ofInt hpred (by omega)) (by omega)) h
  · rw [not_lt_of_atLeast (atLeast_ofInt hsafe (not_lt.1 h)) le_rfl]
    exact iff_of_false Bool.false_ne_true h

theorem add_intCast (m n : ℤ) : add (.finite m) (.finite n) = ofInt (m + n) := by
  show ofRat (m + n) = ofRat ((m + n : ℤ) : ℚ)
  push_cast
  rfl

/-- **Whole quotients**: rounding a quotient by `d ≤ 2 ^ k` does not reach the next integer, if that
has `k` bits to spare. -/
theorem floor_div (hd : 0 < d) (hk : d ≤ 2 ^ k) (hk' : k ≤ 1074) (hm : Safe m) (hq : Safe (m / d))
    (hbits : Safe ((m / d + 1) * 2 ^ k - 1)) : ((ofInt m).div d).floor = .finite (m / d : ℤ) := by
  have hdpos : (0 : ℚ) < d := by exact_mod_cast hd
  have hpow : (0 : ℚ) < 2 ^ k := by positivity
  have hlow : ((m / d : ℤ) : ℚ) ≤ m / d := by
    rw [le_div_iff₀ hdpos]
    exact_mod_cast Int.ediv_mul_le m hd.ne'
  have hhigh : (m / d : ℚ) ≤ ((m / d + 1) * 2 ^ k - 1 : ℤ) * 2 ^ (-k : ℤ) := by
    have hm' : m ≤ (m / d + 1) * d - 1 := by
      have := Int.lt_ediv_add_one_mul_self m hd
      omega
    have hmq : (m : ℚ) ≤ ((m / d : ℤ) + 1) * d - 1 := by exact_mod_cast hm'
    have hkq : (d : ℚ) ≤ 2 ^ k := by exact_mod_cast hk
    rw [zpow_neg, zpow_natCast, ← div_eq_mul_inv, div_le_div_iff₀ hdpos hpow]
    push_cast
    nlinarith
  have hnear : ((m / d : ℤ) : ℚ) ≤ nearest (m / d) ∧ nearest (m / d) < (m / d : ℤ) + 1 := by
    constructor
    · rw [← nearest_intCast hq]
      exact nearest_mono hlow
    · have hle := nearest_mono hhigh
      rw [nearest_of_bits hbits (by omega)] at hle
      refine lt_of_le_of_lt hle ?_
      rw [zpow_neg, zpow_natCast, ← div_eq_mul_inv, div_lt_iff₀ hpow]
      push_cast
      linarith
  have hfloor : ⌊nearest (m / d : ℚ)⌋ = m / d := Int.floor_eq_iff.2 hnear
  have hfinite : ofRat (m / d : ℚ) = .finite (nearest (m / d)) := by
    have hlo := (greatest_gt_of_safe hq).1
    have hsucc : ((m / d : ℤ) : ℚ) + 1 ≤ 2 ^ 53 := by exact_mod_cast (safe_iff.1 hq).2
    have hgreat := lt_greatest
    rw [ofRat, if_neg (by linarith [hnear.2]), if_neg (by linarith [hnear.1])]
  rw [ofInt_of_safe hm]
  show floor (ofRat (m / d)) = _
  rw [hfinite, floor, hfloor, ofInt_of_safe hq]

end Number

end Aegis
