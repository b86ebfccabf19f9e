import Aegis.Lib.Decimal
import Aegis.Lib.Hex

/-!
# Flat JSON objects

The text of a record of strings and 64-bit integers as a JSON object, and a reader of such text that
knows the names and the kinds of the fields. What is written reads back as it was.
-/

namespace Aegis.Json

/-- The value of a field. -/
inductive Scalar
  | str (text : List Char)
  | int (n : Int64)
deriving DecidableEq

/-! ## Writing -/

/-- A character in a string literal: quotes, backslashes and control characters are escaped, and so
are the characters that HTML or JavaScript would take for their own. -/
def escape (c : Char) : List Char :=
  if c = '"' then ['\\', '"']
  else if c = '\\' then ['\\', '\\']
  else if c = '\x08' then ['\\', 'b']
  else if c = '\x0c' then ['\\', 'f']
  else if c = '\n' then ['\\', 'n']
  else if c = '\r' then ['\\', 'r']
  else if c = '\t' then ['\\', 't']
  else if c.toNat < 32 ∨ c = '<' ∨ c = '>' ∨ c = '&' ∨ c.toNat = 0x2028 ∨ c.toNat = 0x2029 then
    '\\' :: 'u' :: hexText 4 c.toNat
  else [c]

/-- A string literal. -/
def quote (text : List Char) : List Char := '"' :: (text.flatMap escape ++ ['"'])

/-- The text of a value. -/
def Scalar.text : Scalar → List Char
  | .str text => quote text
  | .int n => formatInt n.toInt

/-- The fields, each after a comma but the first. -/
def fieldsText : List (List Char × Scalar) → List Char
  | [] => []
  | [(name, v)] => quote name ++ ':' :: v.text
  | (name, v) :: fields => quote name ++ ':' :: (v.text ++ ',' :: fieldsText fields)

/-- An object. -/
def marshal (fields : List (List Char × Scalar)) : List Char :=
  '\x7b' :: (fieldsText fields ++ ['\x7d'])

/-! ## Reading -/

/-- The character of four hexadecimal digits. -/
def readHex (a b c d : Char) : Option Char := do
  let a ← hexValue a
  let b ← hexValue b
  let c ← hexValue c
  let d ← hexValue d
  return Char.ofNat (((a * 16 + b) * 16 + c) * 16 + d)

/-- The character after a backslash. -/
def readEscape : List Char → Option (Char × List Char)
  | 'u' :: a :: b :: c :: d :: rest => (readHex a b c d).map fun e => (e, rest)
  | 'b' :: rest => some ('\x08', rest)
  | 'f' :: rest => some ('\x0c', rest)
  | 'n' :: rest => some ('\n', rest)
  | 'r' :: rest => some ('\r', rest)
  | 't' :: rest => some ('\t', rest)
  | c :: rest => if c = '"' ∨ c = '\\' ∨ c = '/' then some (c, rest) else none
  | [] => none

/-- The rest of a string literal, and what follows it, for as many characters as are allowed. -/
def unquoteRest : Nat → List Char → Option (List Char × List Char)
  | 0, _ => none
  | _ + 1, [] => none
  | k + 1, c :: rest =>
    if c = '"' then some ([], rest)
    else if c = '\\' then do
      let (e, rest) ← readEscape rest
      let (text, rest) ← unquoteRest k rest
      return (e :: text, rest)
    else do
      let (text, rest) ← unquoteRest k rest
      return (c :: text, rest)

/-- A string literal, and what follows it. -/
def unquote : List Char → Option (List Char × List Char)
  | '"' :: rest => unquoteRest rest.length rest
  | _ => none

/-- A number, and what follows it. -/
def readInt (text : List Char) : Option (Int64 × List Char) :=
  let (digits, rest) := text.span fun c => c.isDigit || c == '-'
  (parseInt digits).map fun n => (n, rest)

/-- A value of the kind that is expected: a number, or else a string. -/
def readScalar (isInt : Bool) (text : List Char) : Option (Scalar × List Char) :=
  if isInt then (readInt text).map fun r => (.int r.1, r.2)
  else (unquote text).map fun r => (.str r.1, r.2)

/-- The character that comes next. -/
def expect (c : Char) : List Char → Option (List Char)
  | [] => none
  | c' :: rest => if c' = c then some rest else none

/-- The fields that are expected, each with its name and whether it is a number. -/
def readFields : List (List Char × Bool) → List Char → Option (List Scalar × List Char)
  | [], text => some ([], text)
  | (name, isInt) :: fields, text => do
    let (name', text) ← unquote text
    if name' ≠ name then none else
    let text ← expect ':' text
    let (v, text) ← readScalar isInt text
    let text ← if fields.isEmpty then some text else expect ',' text
    let (vs, text) ← readFields fields text
    return (v :: vs, text)

/-- The values of an object with the fields that are expected, in their order. -/
def unmarshal (fields : List (List Char × Bool)) (text : List Char) : Option (List Scalar) := do
  let text ← expect '\x7b' text
  let (vs, text) ← readFields fields text
  let text ← expect '\x7d' text
  if text.isEmpty then some vs else none

/-! ## Round trip -/

theorem readHex_hexText {c : Char} (hc : c.toNat < 16 ^ 4) :
    ∃ a b d e, hexText 4 c.toNat = [a, b, d, e] ∧ readHex a b d e = some c := by
  have hlt : ∀ n, n % 16 < 16 := fun n => Nat.mod_lt n (by decide)
  refine ⟨_, _, _, _, rfl, ?_⟩
  simp only [readHex, hexValue_hexDigit (hlt _), Option.bind_eq_bind, Option.bind_some,
    Option.pure_def]
  rw [show ((c.toNat / 16 / 16 / 16 % 16 * 16 + c.toNat / 16 / 16 % 16) * 16 +
    c.toNat / 16 % 16) * 16 + c.toNat % 16 = c.toNat by omega, Char.ofNat_toNat]

/-- One character of a literal. -/
theorem unquoteRest_escape (c : Char) (k : Nat) (rest : List Char) :
    unquoteRest (k + 1) (escape c ++ rest) =
      (unquoteRest k rest).map fun r => (c :: r.1, r.2) := by
  have hbind : ∀ o : Option (List Char × List Char),
      (o.bind fun r => some (c :: r.1, r.2)) = o.map fun r => (c :: r.1, r.2) := by
    intro o
    cases o <;> rfl
  unfold escape
  split_ifs with h₁ h₂ h₃ h₄ h₅ h₆ h₇ h₈
  · subst h₁; exact hbind _
  · subst h₂; exact hbind _
  · subst h₃; exact hbind _
  · subst h₄; exact hbind _
  · subst h₅; exact hbind _
  · subst h₆; exact hbind _
  · subst h₇; exact hbind _
  · have hc : c.toNat < 16 ^ 4 := by
      rcases h₈ with h | rfl | rfl | rfl | h | h
      · omega
      · decide
      · decide
      · decide
      · omega
      · omega
    obtain ⟨a, b, d, e, htext, hread⟩ := readHex_hexText hc
    rw [htext]
    have hescape : readEscape ('u' :: a :: b :: d :: e :: rest) = some (c, rest) := by
      rw [readEscape, hread, Option.map_some]
    simp only [List.cons_append, List.nil_append, unquoteRest, hescape, Option.bind_eq_bind,
      Option.bind_some]
    exact hbind _
  · simp only [List.cons_append, List.nil_append, unquoteRest, if_neg h₁, if_neg h₂]
    exact hbind _

theorem unquoteRest_flatMap {k : Nat} {text : List Char} (hk : text.length < k) (rest : List Char) :
    unquoteRest k (text.flatMap escape ++ '"' :: rest) = some (text, rest) := by
  induction text generalizing k with
  | nil =>
    obtain ⟨k, rfl⟩ := Nat.exists_eq_succ_of_ne_zero (Nat.ne_of_gt hk)
    rfl
  | cons c text ih =>
    obtain ⟨k, rfl⟩ := Nat.exists_eq_succ_of_ne_zero (Nat.ne_of_gt (Nat.zero_lt_of_lt hk))
    rw [List.flatMap_cons, List.append_assoc, unquoteRest_escape, ih (Nat.lt_of_succ_lt_succ hk)]
    rfl

theorem length_le_flatMap_escape (text : List Char) :
    text.length ≤ (text.flatMap escape).length := by
  have hpos : ∀ c, 1 ≤ (escape c).length := by
    intro c
    unfold escape
    split_ifs <;> simp
  induction text with
  | nil => exact Nat.le_refl 0
  | cons c text ih =>
    rw [List.flatMap_cons, List.length_append, List.length_cons]
    have := hpos c
    omega

theorem unquote_quote (text rest : List Char) :
    unquote (quote text ++ rest) = some (text, rest) := by
  have hlen := length_le_flatMap_escape text
  rw [quote, List.cons_append, unquote, List.append_assoc, List.singleton_append]
  refine unquoteRest_flatMap ?_ rest
  rw [List.length_append, List.length_cons]
  omega

/-- What follows a number does not look like its continuation. -/
def Ends (rest : List Char) : Prop := ∀ c ∈ rest.head?, (c.isDigit || c == '-') = false

theorem readInt_formatInt (n : Int64) (h : Ends rest) :
    readInt (formatInt n.toInt ++ rest) = some (n, rest) := by
  have hspan : (formatInt n.toInt ++ rest).span (fun c => c.isDigit || c == '-') =
      (formatInt n.toInt, rest) := by
    rw [List.span_eq_takeWhile_dropWhile]
    have hall : ∀ c ∈ formatInt n.toInt, (c.isDigit || c == '-') = true := by
      intro c hc
      rcases of_mem_formatInt hc with hd | rfl
      · rw [hd, Bool.true_or]
      · rfl
    rw [List.takeWhile_append_of_pos hall, List.dropWhile_append_of_pos hall]
    cases rest with
    | nil => rw [List.takeWhile_nil, List.dropWhile_nil, List.append_nil]
    | cons c rest =>
      have hc := h c rfl
      rw [List.takeWhile_cons_of_neg (by rw [hc]; exact Bool.false_ne_true),
        List.dropWhile_cons_of_neg (by rw [hc]; exact Bool.false_ne_true), List.append_nil]
  rw [readInt, hspan]
  dsimp only
  rw [parseInt_formatInt, Option.map_some]

/-- The kind of a value. -/
def Scalar.isInt : Scalar → Bool
  | .str _ => false
  | .int _ => true

theorem readScalar_text (v : Scalar) (h : Ends rest) :
    readScalar v.isInt (v.text ++ rest) = some (v, rest) := by
  cases v with
  | str text =>
    show (unquote (quote text ++ rest)).map _ = _
    rw [unquote_quote, Option.map_some]
  | int n =>
    show (readInt (formatInt n.toInt ++ rest)).map _ = _
    rw [readInt_formatInt n h, Option.map_some]

theorem readFields_fieldsText (fields : List (List Char × Scalar)) (h : Ends rest) :
    readFields (fields.map fun f => (f.1, f.2.isInt)) (fieldsText fields ++ rest) =
      some (fields.map Prod.snd, rest) := by
  induction fields with
  | nil => rfl
  | cons f fields ih =>
    obtain ⟨name, v⟩ := f
    cases fields with
    | nil =>
      simp only [fieldsText, List.map_cons, List.map_nil, readFields, List.append_assoc,
        List.cons_append, unquote_quote, Option.bind_eq_bind, Option.bind_some, ne_eq,
        not_true_eq_false, if_false, expect, if_true, readScalar_text v h, List.isEmpty_nil,
        Option.pure_def]
    | cons f' fields =>
      have hcomma : Ends (',' :: (fieldsText (f' :: fields) ++ rest)) := by
        intro c hc
        cases hc
        rfl
      have htext : fieldsText ((name, v) :: f' :: fields) =
          quote name ++ ':' :: (v.text ++ ',' :: fieldsText (f' :: fields)) := rfl
      rw [List.map_cons, readFields, htext, List.append_assoc, unquote_quote]
      simp only [List.cons_append, List.append_assoc, Option.bind_eq_bind, Option.bind_some, ne_eq,
        not_true_eq_false, if_false, expect, if_true, readScalar_text v hcomma, List.map_cons,
        List.isEmpty_cons, Bool.false_eq_true] at ih ⊢
      rw [ih]
      rfl

/-- **What is written reads back as it was.** -/
theorem unmarshal_marshal (fields : List (List Char × Scalar)) :
    unmarshal (fields.map fun f => (f.1, f.2.isInt)) (marshal fields) =
      some (fields.map Prod.snd) := by
  have hends : Ends ['\x7d'] := by
    intro c hc
    cases hc
    rfl
  simp only [unmarshal, marshal, expect, if_true, Option.bind_eq_bind, Option.bind_some,
    readFields_fieldsText fields hends, List.isEmpty_nil]

end Aegis.Json
