import Aegis.Lib.Decimal
import Aegis.Lib.Double
import Aegis.Lib.Hex
import Mathlib.Data.List.TakeWhile

/-!
# Conversions of ECMAScript

How ECMAScript reads numbers from text (`Number(text)`, `parseInt(text, 16)`) and writes them
(`String(n)`), what it makes of the values of JSON where it expects something else, and the reading
of bytes from hexadecimal text with a regular expression. The decimal text of an integer is read as
the number nearest to it, integers below 2^53 are written as such text, and the bytes of lower-case
hexadecimal text are the ones that strict decoding finds.
-/

namespace Aegis.Ecma

/-! ## Reading numbers -/

/-- The end of a line. -/
def isLineTerminator (c : Char) : Bool := c.toNat ∈ [0xA, 0xD, 0x2028, 0x2029]

/-- White space and the ends of lines. -/
def isSpace (c : Char) : Bool :=
  isLineTerminator c || 0x2000 ≤ c.toNat && c.toNat ≤ 0x200A ||
    c.toNat ∈ [0x9, 0xB, 0xC, 0x20, 0xA0, 0x1680, 0x202F, 0x205F, 0x3000, 0xFEFF]

def trim (text : List Char) : List Char :=
  ((text.dropWhile isSpace).reverse.dropWhile isSpace).reverse

/-- The number that digits of a radix up to sixteen stand for. -/
def readRadix (radix : Nat) (text : List Char) : Option Nat :=
  if text = [] then none
  else text.foldlM (fun n c => ((hexValue c).filter (· < radix)).map (radix * n + ·)) 0

/-- The exponent at the end of a decimal literal. -/
def readExponent : List Char → Option Int
  | [] => some 0
  | c :: text =>
    if c = 'e' ∨ c = 'E' then
      (readDigits (splitSign text).2).map fun n => if (splitSign text).1 then -n else n
    else none

/-- The fraction after the point, if there is a point, and what follows. -/
def splitFraction : List Char → List Char × List Char
  | '.' :: text => text.span Char.isDigit
  | text => ([], text)

/-- A decimal literal without a sign: digits before or after the point, and an exponent. -/
def readDecimal (text : List Char) : Option ℚ := do
  let (whole, rest) := text.span Char.isDigit
  let (fraction, rest) := splitFraction rest
  let n ← readDigits (whole ++ fraction)
  let e ← readExponent rest
  return n * 10 ^ (e - fraction.length)

/-- A decimal literal, or the word for infinity, with a sign or none. -/
def signedDecimal (text : List Char) : Number :=
  let (minus, rest) := splitSign text
  if rest = ['I', 'n', 'f', 'i', 'n', 'i', 't', 'y'] then .infinity minus
  else
    match readDecimal rest with
    | some x => .ofRat (if minus then -x else x)
    | none => .nan

/-- Digits of another radix. -/
def radixNumber (radix : Nat) (text : List Char) : Number :=
  match readRadix radix text with
  | some n => .ofInt n
  | none => .nan

/-- `Number(text)`. -/
def stringToNumber (text : List Char) : Number :=
  match trim text with
  | [] => .finite 0
  | '0' :: c :: rest =>
    if c = 'x' ∨ c = 'X' then radixNumber 16 rest
    else if c = 'o' ∨ c = 'O' then radixNumber 8 rest
    else if c = 'b' ∨ c = 'B' then radixNumber 2 rest
    else signedDecimal ('0' :: c :: rest)
  | text => signedDecimal text

/-- `Number(value)` of a text or null. -/
def toNumber : Option (List Char) → Number
  | none => .finite 0
  | some text => stringToNumber text

theorem not_isSpace_of_isDigit (h : c.isDigit = true ∨ c = '-') : isSpace c = false := by
  rcases h with h | rfl
  · obtain ⟨hlo, hhi⟩ : 48 ≤ c.toNat ∧ c.toNat ≤ 57 := by
      simpa [Char.isDigit, UInt32.le_iff_toNat_le] using h
    simp only [isSpace, isLineTerminator, List.mem_cons, List.not_mem_nil, or_false,
      Bool.or_eq_false_iff, Bool.and_eq_false_iff, decide_eq_false_iff_not]
    omega
  · decide

/-- Text without space is not changed by trimming. -/
theorem trim_eq_self (h : ∀ c ∈ text, isSpace c = false) : trim text = text := by
  have hdrop : ∀ {l : List Char}, (∀ c ∈ l, isSpace c = false) → l.dropWhile isSpace = l := by
    intro l hl
    cases l with
    | nil => rfl
    | cons c l => rw [List.dropWhile_cons_of_neg (by simp [hl c List.mem_cons_self])]
  have hrev : ∀ c ∈ text.reverse, isSpace c = false := fun c hc => h c (List.mem_reverse.1 hc)
  rw [trim, hdrop h, hdrop hrev, List.reverse_reverse]

theorem readDecimal_toDigits (n : Nat) : readDecimal (Nat.toDigits 10 n) = some (n : ℚ) := by
  have hall : ∀ c ∈ Nat.toDigits 10 n, c.isDigit = true := fun c hc => isDigit_of_mem_toDigits hc
  have hspan : (Nat.toDigits 10 n).span Char.isDigit = (Nat.toDigits 10 n, []) := by
    rw [List.span_eq_takeWhile_dropWhile, List.takeWhile_eq_self_iff.2 hall,
      List.dropWhile_eq_nil_iff.2 hall]
  simp only [readDecimal, hspan, splitFraction, List.append_nil, readDigits_toDigits, readExponent,
    Option.bind_eq_bind, Option.bind_some, Option.pure_def, List.length_nil, Nat.cast_zero,
    sub_zero, zpow_zero, mul_one]

theorem signedDecimal_formatInt (i : Int) : signedDecimal (formatInt i) = .ofInt i := by
  have hdigits : ∀ n, Nat.toDigits 10 n ≠ ['I', 'n', 'f', 'i', 'n', 'i', 't', 'y'] := by
    intro n h
    have := isDigit_of_mem_toDigits (n := n) (h ▸ List.mem_cons_self)
    cases this
  cases i with
  | ofNat n =>
    simp only [signedDecimal, formatInt, splitSign_toDigits, if_neg (hdigits n),
      readDecimal_toDigits, Bool.false_eq_true, if_false]
    rfl
  | negSucc n =>
    simp only [signedDecimal, formatInt, splitSign, if_neg (hdigits (n + 1)),
      readDecimal_toDigits, if_true, Number.ofInt]
    congr 1

/-- **The text of an integer is read as the number nearest to it.** -/
theorem stringToNumber_formatInt (i : Int) : stringToNumber (formatInt i) = .ofInt i := by
  have htrim : trim (formatInt i) = formatInt i :=
    trim_eq_self fun c hc => not_isSpace_of_isDigit (of_mem_formatInt hc)
  unfold stringToNumber
  rw [htrim]
  split
  · next hnil =>
    cases i with
    | ofNat n => exact absurd hnil Nat.toDigits_ne_nil
    | negSucc n => cases hnil
  · next c rest htext =>
    -- a digit follows the zero, so this is no other radix
    have hc : c.isDigit = true ∨ c = '-' :=
      of_mem_formatInt (htext ▸ List.mem_cons_of_mem _ List.mem_cons_self)
    have hne : ∀ d : Char, d.isDigit = false → d ≠ '-' → c ≠ d := by
      rintro d hd hminus rfl
      rcases hc with hc | hc
      · rw [hd] at hc
        cases hc
      · exact hminus hc
    rw [if_neg, if_neg, if_neg, ← htext, signedDecimal_formatInt]
    all_goals
      rintro (rfl | rfl)
      all_goals exact hne _ (by decide) (by decide) rfl
  · exact signedDecimal_formatInt i

/-! ## Writing integers -/

/-- The fewest digits that are read as `x`, with the exponent of the last one: `10 ^ (n - 1) ≤ x`
and `x < 10 ^ n`, and the search tries `k` digits and more. -/
def shortest (x : ℚ) (n : Int) : Nat → Nat → Nat × Int
  | 0, k => (⌊x / 10 ^ (n - k)⌋.toNat, n - k)
  | fuel + 1, k =>
    let lo := ⌊x / 10 ^ (n - k)⌋.toNat
    let closest := if x / 10 ^ (n - k) - lo ≤ 1 / 2 then [lo, lo + 1] else [lo + 1, lo]
    match closest.find? fun m : Nat => Double.nearest (m * 10 ^ (n - k)) = x with
    | some m => (m, n - k)
    | none => shortest x n fuel (k + 1)

/-- The digits that are needed, and the place of the point among them. -/
def decimal (x : ℚ) : List Char × Int :=
  let (m, e) := shortest x (Int.log 10 x + 1) 17 1
  let digits := Nat.toDigits 10 m
  ((digits.reverse.dropWhile (· = '0')).reverse, e + digits.length)

/-- Digits with a point after the first. -/
def mantissa : List Char → List Char
  | d :: d' :: rest => d :: '.' :: d' :: rest
  | digits => digits

/-- A positive integer that may have more digits than are needed. -/
def farText (x : ℚ) : List Char :=
  let (digits, n) := decimal x
  if n ≤ 21 then digits ++ List.replicate (n - digits.length).toNat '0'
  else mantissa digits ++ ['e', '+'] ++ formatInt (n - 1)

/-- `String(n)` of an integer. -/
def integerText (n : Int) : List Char :=
  if -2 ^ 53 ≤ n ∧ n ≤ 2 ^ 53 then formatInt n
  else if n < 0 then '-' :: farText (-n)
  else farText n

theorem integerText_of_safe (h : Number.Safe n) : integerText n = formatInt n := by
  obtain ⟨hlo, hhi⟩ := Number.safe_iff.1 h
  rw [integerText, if_pos ⟨hlo.le, hhi.le⟩]

example : integerText (10 ^ 23) = "1e+23".toList := by decide +kernel
example : integerText (2 ^ 60) = "1152921504606847000".toList := by decide +kernel

/-- A positive number that is no integer: the fewest digits, with a point or an exponent. -/
def fractionText (x : ℚ) : List Char :=
  let (digits, n) := decimal x
  if 0 < n then digits.take n.toNat ++ '.' :: digits.drop n.toNat
  else if -6 < n then ['0', '.'] ++ List.replicate (-n).toNat '0' ++ digits
  else mantissa digits ++ ['e'] ++ formatInt (n - 1)

/-- `String(x)`. -/
def numberText : Number → List Char
  | .nan => ['N', 'a', 'N']
  | .infinity negative => (if negative then ['-'] else []) ++ "Infinity".toList
  | .finite x =>
    if x.den = 1 then integerText x.num
    else if x < 0 then '-' :: fractionText (-x)
    else fractionText x

/-! ## Values of JSON -/

/-- What JSON is read as. -/
inductive Value
  | null
  | bool (b : Bool)
  | number (x : Number)
  | text (s : List Char)
  | array (items : List Value)
  | object (fields : List (List Char × Value))

namespace Value

def isNull : Value → Bool
  | .null => true
  | _ => false

/-- The value counts as true. -/
def truthy : Value → Bool
  | .null => false
  | .bool b => b
  | .number x => x != .nan && x != .finite 0
  | .text s => !s.isEmpty
  | .array _ => true
  | .object _ => true

/-- The number whose decimal text is the name of a property. -/
def index (name : List Char) : Option Nat :=
  (readDigits name).filter fun n => Nat.toDigits 10 n = name

/-- The code units of a text, where each half of a surrogate pair stands for the pair. -/
def units (s : List Char) : List Char :=
  s.flatMap fun c => if c.toNat < 0x10000 then [c] else [c, c]

/-- `value[name]`, if it is a property of the value's own; a value that is null has none. -/
def get (v : Value) (name : List Char) : Option Value :=
  match v with
  | .text s =>
    if name = "length".toList then some (.number (.ofInt (units s).length))
    else (index name).bind fun i => (units s)[i]?.map fun c => .text [c]
  | .array items =>
    if name = "length".toList then some (.number (.ofInt items.length))
    else (index name).bind fun i => items[i]?
  | .object fields => fields.lookup name
  | _ => none

mutual

/-- `String(value)`, if it does not throw: an object with a property `toString` of its own, which is
no function, has no text. -/
def toText : Value → Option (List Char)
  | .null => some ['n', 'u', 'l', 'l']
  | .bool b => some (if b then ['t', 'r', 'u', 'e'] else ['f', 'a', 'l', 's', 'e'])
  | .number x => some (numberText x)
  | .text s => some s
  | .array items => (itemTexts items).map ([','].intercalate ·)
  | .object fields =>
    if fields.any fun f => f.1 = "toString".toList then none else some "[object Object]".toList

/-- The texts that the text of an array is made of; for null it is no text. -/
def itemTexts : List Value → Option (List (List Char))
  | [] => some []
  | v :: items => do
    let s ← if v.isNull then some [] else v.toText
    let texts ← itemTexts items
    return s :: texts

end

/-- `value + y` for a number `y`, if it does not throw: a sum, or the two texts. -/
def plus (v : Value) (y : Number) : Option (Number ⊕ List Char) :=
  match v with
  | .null => some (.inl ((Number.finite 0).add y))
  | .bool b => some (.inl ((Number.finite (if b then 1 else 0)).add y))
  | .number x => some (.inl (x.add y))
  | v => v.toText.map fun s => .inr (s ++ numberText y)

/-- `x < y` for a number `x` and a number or text `y`. -/
def less (x : Number) : Number ⊕ List Char → Bool
  | .inl y => x.lt y
  | .inr s => x.lt (stringToNumber s)

end Value

/-! ## Bytes from hexadecimal text -/

/-- `parseInt(text, 16)`: the longest run of digits after a sign and `0x`. -/
def parseHex (text : List Char) : Option Int :=
  let (minus, rest) := splitSign (text.dropWhile isSpace)
  let rest := match rest with
    | '0' :: 'x' :: rest => rest
    | '0' :: 'X' :: rest => rest
    | rest => rest
  (readRadix 16 (rest.takeWhile fun c => (hexValue c).isSome)).map fun n => if minus then -n else n

/-- What an array of bytes makes of a number. -/
def toUint8 : Option Int → UInt8
  | none => 0
  | some i => UInt8.ofNat (i % 256).toNat

/-- The matches of `/../g`, where the dot stands for anything but the end of a line. -/
def matchPairs : List Char → List (Char × Char)
  | a :: b :: text =>
    if isLineTerminator a || isLineTerminator b then matchPairs (b :: text)
    else (a, b) :: matchPairs text
  | _ => []

/-- `new Uint8Array((text.match(/../g) || []).map(h => parseInt(h, 16)))`. -/
def hexBytes (text : List Char) : List UInt8 :=
  (matchPairs text).map fun p => toUint8 (parseHex [p.1, p.2])

theorem toUint8_parseHex : ∀ m n : Fin 16,
    toUint8 (parseHex [hexDigit m, hexDigit n]) = UInt8.ofNat (16 * m + n) := by
  decide +kernel

theorem not_isLineTerminator_hexDigit : ∀ n : Fin 16, isLineTerminator (hexDigit n) = false := by
  decide +kernel

/-- **Lower-case hexadecimal text is decoded alike.** -/
theorem decodeString_eq_hexBytes (h : text.all isLowerHexDigit = true)
    (heven : text.length % 2 = 0) : decodeString text = some (hexBytes text) := by
  induction text using decodeString.induct with
  | case1 => rfl
  | case2 c => cases heven
  | case3 c c' text ih =>
    simp only [List.all_cons, Bool.and_eq_true] at h
    obtain ⟨hc, hc', htext⟩ := h
    obtain ⟨m, rfl⟩ := exists_hexDigit hc
    obtain ⟨n, rfl⟩ := exists_hexDigit hc'
    have heven' : text.length % 2 = 0 := by
      simp only [List.length_cons] at heven
      omega
    have hbytes : hexBytes (hexDigit m :: hexDigit n :: text) =
        UInt8.ofNat (16 * m + n) :: hexBytes text := by
      rw [hexBytes, matchPairs, not_isLineTerminator_hexDigit, not_isLineTerminator_hexDigit]
      exact congrArg (· :: hexBytes text) (toUint8_parseHex m n)
    rw [decodeString, hexValue_hexDigit m.isLt, hexValue_hexDigit n.isLt, ih htext heven', hbytes]
    rfl

/-- Encoded bytes are read back. -/
theorem hexBytes_encodeToString (bytes : List UInt8) : hexBytes (encodeToString bytes) = bytes := by
  have hall : (encodeToString bytes).all isLowerHexDigit = true :=
    List.all_eq_true.2 fun c hc => isLowerHexDigit_of_mem_encodeToString hc
  have hdecode := decodeString_eq_hexBytes hall (by rw [length_encodeToString]; omega)
  rw [decodeString_encodeToString] at hdecode
  exact (Option.some.inj hdecode).symm

end Aegis.Ecma
