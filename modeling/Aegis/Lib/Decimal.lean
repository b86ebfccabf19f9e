import Mathlib.Tactic

/-!
# Decimal text

Integers as decimal digits with a sign in front of a negative one, and the reading of such text into
a 64-bit integer. The text of a 64-bit integer reads back as that integer.
-/

namespace Aegis

/-! ## Writing -/

/-- The text of an integer. -/
def formatInt : Int → List Char
  | .ofNat n => Nat.toDigits 10 n
  | .negSucc n => '-' :: Nat.toDigits 10 (n + 1)

theorem toDigits_inj (h : Nat.toDigits 10 m = Nat.toDigits 10 n) : m = n := by
  rw [← Nat.ofDigitChars_toDigits (b := 10) (n := m) (by decide) (by decide), h,
    Nat.ofDigitChars_toDigits (by decide) (by decide)]

theorem isDigit_of_mem_toDigits (h : c ∈ Nat.toDigits 10 n) : c.isDigit = true :=
  Nat.isDigit_of_mem_toDigits (by decide) (by decide) h

/-- Digits have no sign in front. -/
theorem toDigits_ne_neg : Nat.toDigits 10 m ≠ '-' :: Nat.toDigits 10 n := by
  intro h
  have hdigit := isDigit_of_mem_toDigits (n := m) (h ▸ List.mem_cons_self)
  cases hdigit

theorem formatInt_inj (h : formatInt i = formatInt j) : i = j := by
  cases i with
  | ofNat m =>
    cases j with
    | ofNat n => rw [toDigits_inj h]
    | negSucc n => exact absurd h toDigits_ne_neg
  | negSucc m =>
    cases j with
    | ofNat n => exact absurd h.symm toDigits_ne_neg
    | negSucc n =>
      have hdigits : m + 1 = n + 1 := toDigits_inj (List.cons.inj h).2
      rw [Nat.succ.inj hdigits]

/-- Decimal text has digits and at most a sign. -/
theorem of_mem_formatInt (h : c ∈ formatInt i) : c.isDigit = true ∨ c = '-' := by
  cases i with
  | ofNat n => exact .inl (isDigit_of_mem_toDigits h)
  | negSucc n =>
    rcases List.mem_cons.1 h with rfl | h
    · exact .inr rfl
    · exact .inl (isDigit_of_mem_toDigits h)

/-! ## Reading -/

/-- The number that a text of digits stands for. -/
def readDigits (text : List Char) : Option Nat :=
  if text ≠ [] ∧ text.all Char.isDigit then some (Nat.ofDigitChars 10 text 0) else none

/-- The text without its sign, and whether that is a minus. -/
def splitSign : List Char → Bool × List Char
  | '-' :: text => (true, text)
  | '+' :: text => (false, text)
  | text => (false, text)

/-- A sign or none, digits, and a number that fits 64 bits. -/
def parseInt (text : List Char) : Option Int64 := do
  let n ← readDigits (splitSign text).2
  let i : Int := if (splitSign text).1 then -n else n
  if (Int64.ofInt i).toInt = i then some (Int64.ofInt i) else none

theorem readDigits_toDigits (n : Nat) : readDigits (Nat.toDigits 10 n) = some n := by
  have hall : (Nat.toDigits 10 n).all Char.isDigit = true :=
    List.all_eq_true.2 fun c hc => isDigit_of_mem_toDigits hc
  rw [readDigits, if_pos ⟨Nat.toDigits_ne_nil, hall⟩,
    Nat.ofDigitChars_toDigits (by decide) (by decide)]

theorem splitSign_toDigits (n : Nat) :
    splitSign (Nat.toDigits 10 n) = (false, Nat.toDigits 10 n) := by
  cases h : Nat.toDigits 10 n with
  | nil => rfl
  | cons c text =>
    have hc : c.isDigit = true := isDigit_of_mem_toDigits (n := n) (h ▸ List.mem_cons_self)
    unfold splitSign
    split
    · next heq =>
      cases heq
      cases hc
    · next heq =>
      cases heq
      cases hc
    · rfl

theorem parseInt_eq (hsign : splitSign text = (minus, digits))
    (hdigits : readDigits digits = some n) (hi : i.toInt = if minus then -(n : Int) else n) :
    parseInt text = some i := by
  rw [parseInt, hsign, hdigits, Option.bind_eq_bind, Option.bind_some, ← hi]
  dsimp only
  rw [Int64.ofInt_toInt, if_pos rfl]

/-- **The text of an integer reads back as that integer.** -/
theorem parseInt_formatInt (i : Int64) : parseInt (formatInt i.toInt) = some i := by
  cases hi : i.toInt with
  | ofNat n => exact parseInt_eq (splitSign_toDigits n) (readDigits_toDigits n) hi
  | negSucc n => exact parseInt_eq rfl (readDigits_toDigits (n + 1)) hi

end Aegis
