import Aegis.Lib.Hex
import Mathlib.Data.Char

/-!
# URLs and their queries

The text of URLs as two libraries read it: `net/url` of Go, which parses strictly, and the URL
Standard, which decodes leniently and into UTF-8. A text is the list of its bytes, each written as
the character of that code; only what the URL Standard decodes is text in the sense of Unicode.

A query that `net/url` encodes is read back by `net/url` (`parseQuery_encode`), and by the URL
Standard where the fields are ASCII (`formParse_encode`). Both find the path and the query of a URL
of the form `scheme://host/path?query` (`parse_root`, `splitWeb_absolute`). Which text is good
for a host is left open: it is a parameter of the parser.
-/

namespace Aegis.Url

/-! ## Cutting -/

/-- The text before the first `c` and the text after it. -/
def cut (c : Char) (text : List Char) : List Char × List Char :=
  (text.takeWhile (· != c), (text.dropWhile (· != c)).tail)

variable {c : Char} {a : List Char}

/-- A run of characters up to one that is not of the kind. -/
theorem span_append (ha : ∀ c ∈ a, p c = true) (hb : ∀ c ∈ b.head?, p c = false) :
    (a ++ b).takeWhile p = a ∧ (a ++ b).dropWhile p = b := by
  rw [List.takeWhile_append_of_pos ha, List.dropWhile_append_of_pos ha]
  cases b with
  | nil => simp
  | cons c b =>
    have hc : p c = false := hb c rfl
    simp [hc]

theorem cut_append (ha : c ∉ a) (b : List Char) : cut c (a ++ c :: b) = (a, b) := by
  have hne : ∀ d ∈ a, (d != c) = true := fun d hd => bne_iff_ne.2 fun h => ha (h ▸ hd)
  obtain ⟨htake, hdrop⟩ := span_append hne (b := c :: b) (by simp)
  rw [cut, htake, hdrop, List.tail_cons]

theorem cut_eq_self (ha : c ∉ a) : cut c a = (a, []) := by
  have hne : ∀ d ∈ a, (d != c) = true := fun d hd => bne_iff_ne.2 fun h => ha (h ▸ hd)
  obtain ⟨htake, hdrop⟩ := span_append hne (b := []) nofun
  rw [List.append_nil] at htake hdrop
  rw [cut, htake, hdrop, List.tail_nil]

/-! ## Escapes -/

/-- The characters that stand for themselves. -/
def isUnreserved (c : Char) : Bool :=
  '0' ≤ c && c ≤ '9' || 'A' ≤ c && c ≤ 'Z' || 'a' ≤ c && c ≤ 'z' || c ∈ ['-', '_', '.', '~']

/-- The upper-case hexadecimal digit of a value below sixteen. -/
def upperHexDigit (n : Nat) : Char := Char.ofNat (if n < 10 then 48 + n else 55 + n)

/-- A byte of a query. -/
def escapeByte (c : Char) : List Char :=
  if isUnreserved c then [c]
  else if c = ' ' then ['+']
  else ['%', upperHexDigit (c.toNat / 16), upperHexDigit (c.toNat % 16)]

/-- `QueryEscape`. -/
def queryEscape (text : List Char) : List Char := text.flatMap escapeByte

/-- `PathUnescape` and, with a plus sign for a space, `QueryUnescape`. -/
def unescape (plus : Bool) : List Char → Option (List Char)
  | [] => some []
  | '%' :: a :: b :: text => do
    let hi ← hexValue a
    let lo ← hexValue b
    let rest ← unescape plus text
    return Char.ofNat (16 * hi + lo) :: rest
  | c :: text =>
    if c = '%' then none
    else (unescape plus text).map ((if plus && c == '+' then ' ' else c) :: ·)

/-- The bytes of a text with escapes, where a percent sign that begins none is one. -/
def percentDecode : List Char → List UInt8
  | [] => []
  | '%' :: a :: b :: text =>
    match hexValue a, hexValue b with
    | some hi, some lo => UInt8.ofNat (16 * hi + lo) :: percentDecode text
    | _, _ => UInt8.ofNat '%'.toNat :: percentDecode (a :: b :: text)
  | c :: text => UInt8.ofNat c.toNat :: percentDecode text

/-- The characters of an escaped text. -/
def isEscaped (c : Char) : Bool := isUnreserved c || c == '+' || c == '%'

theorem hexValue_upperHexDigit (h : n < 16) : hexValue (upperHexDigit n) = some n := by
  interval_cases n <;> decide

theorem isUnreserved_upperHexDigit (h : n < 16) : isUnreserved (upperHexDigit n) = true := by
  interval_cases n <;> decide

/-- A byte that is written as an escape. -/
theorem escapeByte_cases (c : Char) :
    (escapeByte c = [c] ∧ isUnreserved c = true) ∨ (escapeByte c = ['+'] ∧ c = ' ') ∨
      escapeByte c = ['%', upperHexDigit (c.toNat / 16), upperHexDigit (c.toNat % 16)] := by
  unfold escapeByte
  split_ifs with h₁ h₂
  · exact .inl ⟨rfl, h₁⟩
  · exact .inr (.inl ⟨rfl, h₂⟩)
  · exact .inr (.inr rfl)

theorem isEscaped_queryEscape (hbytes : ∀ c ∈ text, c.toNat < 256) (hd : d ∈ queryEscape text) :
    isEscaped d = true := by
  obtain ⟨c, hc, hd⟩ := List.mem_flatMap.1 hd
  have hbyte := hbytes c hc
  rcases escapeByte_cases c with ⟨heq, hun⟩ | ⟨heq, -⟩ | heq
  · rw [heq, List.mem_singleton] at hd
    rw [hd, isEscaped, hun, Bool.true_or, Bool.true_or]
  · rw [heq, List.mem_singleton] at hd
    rw [hd]
    decide
  · have hhi := isUnreserved_upperHexDigit (n := c.toNat / 16) (by omega)
    have hlo := isUnreserved_upperHexDigit (n := c.toNat % 16) (by omega)
    rw [heq] at hd
    rcases List.mem_cons.1 hd with rfl | hd
    · decide
    · rcases List.mem_cons.1 hd with rfl | hd
      · rw [isEscaped, hhi, Bool.true_or, Bool.true_or]
      · rw [List.mem_singleton.1 hd, isEscaped, hlo, Bool.true_or, Bool.true_or]

theorem ne_of_isUnreserved (h : isUnreserved c = true) : c ≠ '%' ∧ c ≠ '+' := by
  constructor
  · rintro rfl
    cases h
  · rintro rfl
    cases h

theorem unescape_cons_of_ne (h : c ≠ '%') (text : List Char) :
    unescape plus (c :: text) =
      (unescape plus text).map ((if plus && c == '+' then ' ' else c) :: ·) := by
  rw [unescape, if_neg h]
  rintro a b text rfl
  exact absurd rfl h

theorem percentDecode_cons_of_ne (h : c ≠ '%') (text : List Char) :
    percentDecode (c :: text) = UInt8.ofNat c.toNat :: percentDecode text := by
  rw [percentDecode]
  rintro a b text rfl
  exact absurd rfl h

/-- A character that is no escape is kept. -/
theorem unescape_eq_self (h : ∀ c ∈ text, c ≠ '%') : unescape false text = some text := by
  induction text with
  | nil => rfl
  | cons c text ih =>
    rw [unescape_cons_of_ne (h c List.mem_cons_self),
      ih fun d hd => h d (List.mem_cons_of_mem _ hd)]
    rfl

theorem unescape_escapeByte (hbyte : c.toNat < 256) (text : List Char) :
    unescape true (escapeByte c ++ text) = (unescape true text).map (c :: ·) := by
  rcases escapeByte_cases c with ⟨heq, hun⟩ | ⟨heq, rfl⟩ | heq
  · obtain ⟨hpercent, hplus⟩ := ne_of_isUnreserved hun
    rw [heq, List.singleton_append, unescape_cons_of_ne hpercent, beq_false_of_ne hplus]
    rfl
  · rw [heq, List.singleton_append, unescape_cons_of_ne (by decide)]
    rfl
  · have hchar : Char.ofNat (16 * (c.toNat / 16) + c.toNat % 16) = c := by
      rw [Nat.div_add_mod, Char.ofNat_toNat]
    rw [heq, List.cons_append, List.cons_append, List.cons_append, List.nil_append, unescape,
      hexValue_upperHexDigit (by omega), hexValue_upperHexDigit (by omega), Option.bind_eq_bind,
      Option.bind_some, Option.bind_eq_bind, Option.bind_some, hchar]
    cases unescape true text <;> rfl

/-- **What is escaped is read back.** -/
theorem unescape_queryEscape (hbytes : ∀ c ∈ text, c.toNat < 256) :
    unescape true (queryEscape text) = some text := by
  induction text with
  | nil => rfl
  | cons c text ih =>
    rw [queryEscape, List.flatMap_cons, unescape_escapeByte (hbytes c List.mem_cons_self),
      ← queryEscape, ih fun d hd => hbytes d (List.mem_cons_of_mem _ hd), Option.map_some]

/-! ## UTF-8 -/

/-- The character in the place of bytes that are none. -/
def replacement : Char := Char.ofNat 0xFFFD

/-- A character of which bytes are missing: how many, the bits so far and the range of the next. -/
structure Pending where
  needed : Nat
  point : Nat
  lower : Nat
  upper : Nat

/-- A byte where a character begins. -/
def lead (b : Nat) : List Char × Option Pending :=
  if b < 0x80 then ([Char.ofNat b], none)
  else if 0xC2 ≤ b ∧ b ≤ 0xDF then ([], some ⟨1, b - 0xC0, 0x80, 0xBF⟩)
  else if 0xE0 ≤ b ∧ b ≤ 0xEF then
    ([], some ⟨2, b - 0xE0, if b = 0xE0 then 0xA0 else 0x80, if b = 0xED then 0x9F else 0xBF⟩)
  else if 0xF0 ≤ b ∧ b ≤ 0xF4 then
    ([], some ⟨3, b - 0xF0, if b = 0xF0 then 0x90 else 0x80, if b = 0xF4 then 0x8F else 0xBF⟩)
  else ([replacement], none)

/-- The decoder of the Encoding Standard, with what has been read of a character. -/
def decodeUtf8 : Option Pending → List UInt8 → List Char
  | none, [] => []
  | some _, [] => [replacement]
  | none, b :: bytes => (lead b.toNat).1 ++ decodeUtf8 (lead b.toNat).2 bytes
  | some p, b :: bytes =>
    if p.lower ≤ b.toNat ∧ b.toNat ≤ p.upper then
      let point := 64 * p.point + (b.toNat - 0x80)
      if p.needed = 1 then Char.ofNat point :: decodeUtf8 none bytes
      else decodeUtf8 (some ⟨p.needed - 1, point, 0x80, 0xBF⟩) bytes
    else replacement :: ((lead b.toNat).1 ++ decodeUtf8 (lead b.toNat).2 bytes)

theorem decodeUtf8_ascii (h : c.toNat < 0x80) (bytes : List UInt8) :
    decodeUtf8 none (UInt8.ofNat c.toNat :: bytes) = c :: decodeUtf8 none bytes := by
  have hbyte : (UInt8.ofNat c.toNat).toNat = c.toNat := by
    rw [UInt8.toNat_ofNat', Nat.mod_eq_of_lt (by omega)]
  rw [decodeUtf8, hbyte, lead, if_pos h, Char.ofNat_toNat]
  rfl

/-- ASCII text without escapes is decoded to itself. -/
theorem decodeUtf8_percentDecode (hascii : ∀ c ∈ text, c.toNat < 0x80)
    (hplain : ∀ c ∈ text, c ≠ '%') : decodeUtf8 none (percentDecode text) = text := by
  induction text with
  | nil => rfl
  | cons c text ih =>
    rw [percentDecode_cons_of_ne (hplain c List.mem_cons_self),
      decodeUtf8_ascii (hascii c List.mem_cons_self),
      ih (fun d hd => hascii d (List.mem_cons_of_mem _ hd))
        (fun d hd => hplain d (List.mem_cons_of_mem _ hd))]

/-! ## Queries -/

/-- A field as it is written. -/
def fieldText (f : List Char × List Char) : List Char := queryEscape f.1 ++ '=' :: queryEscape f.2

/-- The fields by their names. -/
def sorted (fields : List (List Char × List Char)) : List (List Char × List Char) :=
  fields.insertionSort fun a b => a.1 ≤ b.1

/-- `Encode`. -/
def encode (fields : List (List Char × List Char)) : List Char :=
  ['&'].intercalate ((sorted fields).map fieldText)

/-- `ParseQuery`, which leaves out what it cannot read. -/
def parseQuery (query : List Char) : List (List Char × List Char) :=
  (query.splitOn '&').filterMap fun piece =>
    if ';' ∈ piece ∨ piece = [] then none
    else do
      let name ← unescape true (cut '=' piece).1
      let value ← unescape true (cut '=' piece).2
      return (name, value)

/-- A name or a value of a form. -/
def formDecode (text : List Char) : List Char :=
  decodeUtf8 none (percentDecode (text.map fun c => if c = '+' then ' ' else c))

/-- The fields of a form, as the URL Standard reads them. -/
def formParse (query : List Char) : List (List Char × List Char) :=
  (query.splitOn '&').filterMap fun piece =>
    if piece = [] then none
    else some (formDecode (cut '=' piece).1, formDecode (cut '=' piece).2)

theorem formDecode_escapeByte (h : c.toNat < 0x80) (text : List Char) :
    formDecode (escapeByte c ++ text) = c :: formDecode text := by
  unfold formDecode
  rw [List.map_append]
  rcases escapeByte_cases c with ⟨heq, hun⟩ | ⟨heq, rfl⟩ | heq
  · obtain ⟨hpercent, hplus⟩ := ne_of_isUnreserved hun
    rw [heq, List.map_singleton, if_neg hplus, List.singleton_append,
      percentDecode_cons_of_ne hpercent, decodeUtf8_ascii h]
  · rw [heq, List.map_singleton, if_pos rfl, List.singleton_append,
      percentDecode_cons_of_ne (by decide), decodeUtf8_ascii h]
  · have hkeep : ∀ n, n < 16 → (if upperHexDigit n = '+' then ' ' else upperHexDigit n) =
        upperHexDigit n := by
      intro n hn
      exact if_neg (ne_of_isUnreserved (isUnreserved_upperHexDigit hn)).2
    rw [heq, List.map_cons, List.map_cons, List.map_singleton, hkeep _ (by omega),
      hkeep _ (by omega), if_neg (by decide), List.cons_append, List.cons_append,
      List.singleton_append, percentDecode, hexValue_upperHexDigit (by omega),
      hexValue_upperHexDigit (by omega)]
    dsimp only
    rw [Nat.div_add_mod, decodeUtf8_ascii h]

/-- **What is escaped is read back as text**, if it is ASCII. -/
theorem formDecode_queryEscape (hascii : ∀ c ∈ text, c.toNat < 0x80) :
    formDecode (queryEscape text) = text := by
  induction text with
  | nil => rfl
  | cons c text ih =>
    rw [queryEscape, List.flatMap_cons, formDecode_escapeByte (hascii c List.mem_cons_self),
      ← queryEscape, ih fun d hd => hascii d (List.mem_cons_of_mem _ hd)]

section
variable {f : List Char × List Char} (hname : ∀ c ∈ f.1, c.toNat < 256)
  (hvalue : ∀ c ∈ f.2, c.toNat < 256)

include hname in
theorem cut_fieldText : cut '=' (fieldText f) = (queryEscape f.1, queryEscape f.2) := by
  refine cut_append (fun hmem => ?_) _
  have := isEscaped_queryEscape hname hmem
  cases this

include hname hvalue in
theorem of_mem_fieldText (hc : c ∈ fieldText f) : isEscaped c = true ∨ c = '=' := by
  rcases List.mem_append.1 hc with hc | hc
  · exact .inl (isEscaped_queryEscape hname hc)
  · rcases List.mem_cons.1 hc with rfl | hc
    · exact .inr rfl
    · exact .inl (isEscaped_queryEscape hvalue hc)

include hname hvalue in
theorem not_mem_fieldText (hc : isEscaped c = false) (hne : c ≠ '=') : c ∉ fieldText f := by
  intro hmem
  rcases of_mem_fieldText hname hvalue hmem with h | h
  · rw [hc] at h
    cases h
  · exact hne h

end

theorem fieldText_ne_nil (f : List Char × List Char) : fieldText f ≠ [] := by
  simp [fieldText]

/-- All the names and values satisfy `p`. -/
def AllFields (p : Char → Prop) (fields : List (List Char × List Char)) : Prop :=
  ∀ f ∈ fields, (∀ c ∈ f.1, p c) ∧ ∀ c ∈ f.2, p c

variable {fields : List (List Char × List Char)}

theorem AllFields.sorted (h : AllFields p fields) : AllFields p (sorted fields) :=
  fun f hf => h f ((List.perm_insertionSort _ fields).mem_iff.1 hf)

/-- The pieces of an encoded query are its fields. -/
theorem splitOn_encode (hne : fields ≠ []) (hbytes : AllFields (fun c => c.toNat < 256) fields) :
    (encode fields).splitOn '&' = (sorted fields).map fieldText := by
  refine List.splitOn_intercalate '&' (fun piece hpiece => ?_) (fun hnil => hne ?_)
  · obtain ⟨f, hf, rfl⟩ := List.mem_map.1 hpiece
    obtain ⟨hname, hvalue⟩ := hbytes.sorted f hf
    exact not_mem_fieldText hname hvalue (by decide) (by decide)
  · have hlen := (List.perm_insertionSort (fun a b => a.1 ≤ b.1) fields).length_eq
    rw [List.map_eq_nil_iff] at hnil
    rw [show fields.insertionSort (fun a b => a.1 ≤ b.1) = [] from hnil] at hlen
    exact List.length_eq_zero_iff.1 hlen.symm

/-- Reading the written fields one by one. -/
theorem filterMap_fieldText {read : List Char → Option (List Char × List Char)}
    (h : ∀ f ∈ fields, read (fieldText f) = some f) :
    (fields.map fieldText).filterMap read = fields := by
  have hread : fields.filterMap (read ∘ fieldText) = fields.filterMap some :=
    List.filterMap_congr fun f hf => h f hf
  rw [List.filterMap_map, hread, List.filterMap_some]

/-- **A query is read back.** -/
theorem parseQuery_encode (hne : fields ≠ []) (hbytes : AllFields (fun c => c.toNat < 256) fields) :
    parseQuery (encode fields) = sorted fields := by
  rw [parseQuery, splitOn_encode hne hbytes]
  refine filterMap_fieldText fun f hf => ?_
  obtain ⟨hname, hvalue⟩ := hbytes.sorted f hf
  have hsemi : ';' ∉ fieldText f := not_mem_fieldText hname hvalue (by decide) (by decide)
  rw [if_neg (by simp [hsemi, fieldText_ne_nil f]), cut_fieldText hname,
    unescape_queryEscape hname, unescape_queryEscape hvalue]
  rfl

/-- **A query is read back as a form**, if it is ASCII. -/
theorem formParse_encode (hne : fields ≠ []) (hascii : AllFields (fun c => c.toNat < 0x80) fields) :
    formParse (encode fields) = sorted fields := by
  have hbytes : AllFields (fun c => c.toNat < 256) fields := fun f hf =>
    ⟨fun c hc => ((hascii f hf).1 c hc).trans (by decide),
      fun c hc => ((hascii f hf).2 c hc).trans (by decide)⟩
  rw [formParse, splitOn_encode hne hbytes]
  refine filterMap_fieldText fun f hf => ?_
  obtain ⟨hname, hvalue⟩ := hascii.sorted f hf
  rw [if_neg (fieldText_ne_nil f), cut_fieldText (hbytes.sorted f hf).1,
    formDecode_queryEscape hname, formDecode_queryEscape hvalue]

/-- What is in joined pieces is in a piece or in what joins them. -/
theorem of_mem_intercalate {sep : List Char} (hc : c ∈ sep.intercalate pieces) :
    c ∈ sep ∨ ∃ piece ∈ pieces, c ∈ piece := by
  induction pieces with
  | nil => cases hc
  | cons piece pieces ih =>
    cases pieces with
    | nil =>
      rw [List.intercalate_singleton] at hc
      exact .inr ⟨piece, List.mem_cons_self, hc⟩
    | cons piece' pieces =>
      rw [List.intercalate_cons_cons, List.append_assoc, List.mem_append, List.mem_append] at hc
      rcases hc with hc | hc | hc
      · exact .inr ⟨piece, List.mem_cons_self, hc⟩
      · exact .inl hc
      · rcases ih hc with hsep | ⟨p, hp, hc⟩
        · exact .inl hsep
        · exact .inr ⟨p, List.mem_cons_of_mem _ hp, hc⟩

/-- The characters of an encoded query. -/
def isQueryChar (c : Char) : Bool := isEscaped c || c == '=' || c == '&'

theorem isQueryChar_of_mem_encode (hbytes : AllFields (fun c => c.toNat < 256) fields)
    (hc : c ∈ encode fields) : isQueryChar c = true := by
  rcases of_mem_intercalate hc with hsep | ⟨piece, hpiece, hc⟩
  · rw [List.mem_singleton.1 hsep]
    decide
  · obtain ⟨f, hf, rfl⟩ := List.mem_map.1 hpiece
    obtain ⟨hname, hvalue⟩ := hbytes.sorted f hf
    rcases of_mem_fieldText hname hvalue hc with h | rfl
    · rw [isQueryChar, h, Bool.true_or, Bool.true_or]
    · decide

/-! ## URLs in `net/url` -/

/-- A control character. -/
def isCtl (c : Char) : Bool := c.toNat < 0x20 || c.toNat == 0x7F

/-- The characters of a scheme. -/
def isSchemeChar (c : Char) : Bool :=
  c.isAlpha || '0' ≤ c && c ≤ '9' || c ∈ ['+', '-', '.']

/-- `getScheme`: the scheme, which may be missing, and the rest. -/
def getScheme (text : List Char) : Option (List Char × List Char) :=
  match text.takeWhile isSchemeChar, text.dropWhile isSchemeChar with
  | [], ':' :: _ => none
  | c :: scheme, ':' :: rest => some (if c.isAlpha then (c :: scheme, rest) else ([], text))
  | _, _ => some ([], text)

/-- What is read of a URL. -/
structure Parsed where
  path : List Char
  rawQuery : List Char
  deriving DecidableEq

/-- The end of `Parse`: the escapes of the path. -/
def setPath (path query : List Char) : Option Parsed :=
  (unescape false path).map fun path => ⟨path, query⟩

/-- `Parse` after the scheme. An authority, which is the host with a user or a port, is accepted by
`authority`. -/
def parseRest (authority : List Char → Bool) (scheme text query : List Char) : Option Parsed :=
  match text with
  | '/' :: '/' :: rest =>
    if scheme = [] ∧ rest.head? = some '/' then setPath text query
    else if authority (rest.takeWhile (· != '/')) then setPath (rest.dropWhile (· != '/')) query
    else none
  | '/' :: _ => setPath text query
  | _ =>
    if scheme ≠ [] then some ⟨[], query⟩
    else if ':' ∈ (cut '/' text).1 then none
    else setPath text query

/-- `Parse`. -/
def parse (authority : List Char → Bool) (text : List Char) : Option Parsed := do
  let (url, fragment) := cut '#' text
  let parsed ←
    if url.any isCtl then none
    else if url = ['*'] then some ⟨['*'], []⟩
    else do
      let (scheme, rest) ← getScheme url
      parseRest authority scheme (cut '?' rest).1 (cut '?' rest).2
  let _ ← unescape false fragment
  return parsed

/-! ## URLs in the URL Standard -/

/-- The path and the query of a URL that is written in full, as the URL of a request is. -/
structure WebUrl where
  pathname : List Char
  search : List Char

/-- Drop the scheme and the slashes of a URL for HTTP. -/
def dropScheme : List Char → Option (List Char)
  | 'h' :: 't' :: 't' :: 'p' :: ':' :: '/' :: '/' :: rest => some rest
  | 'h' :: 't' :: 't' :: 'p' :: 's' :: ':' :: '/' :: '/' :: rest => some rest
  | _ => none

/-- `new URL(text)`, for text that is the URL of a request. -/
def splitWeb (text : List Char) : Option WebUrl :=
  (dropScheme text).map fun rest =>
    let target := (cut '#' rest).1.dropWhile (· ∉ ['/', '?'])
    ⟨(cut '?' target).1, (cut '?' target).2⟩

/-! ## Where both find the path and the query -/

/-- The schemes of HTTP. -/
inductive Scheme
  | http
  | https

def Scheme.text : Scheme → List Char
  | .http => ['h', 't', 't', 'p']
  | .https => ['h', 't', 't', 'p', 's']

/-- The characters that can be in a host. -/
def isHostChar (c : Char) : Bool := !isCtl c && c ∉ ['/', '\\', '?', '#', '@']

/-- A scheme and a host. -/
structure Root where
  scheme : List Char
  host : List Char
  alpha : scheme.head?.any Char.isAlpha = true
  schemeChars : ∀ c ∈ scheme, isSchemeChar c = true
  plain : ∀ c ∈ host, isHostChar c = true

def Root.text (root : Root) : List Char := root.scheme ++ [':', '/', '/'] ++ root.host

/-- A scheme of HTTP and a host. -/
structure Base where
  scheme : Scheme
  host : List Char
  plain : ∀ c ∈ host, isHostChar c = true

def Base.text (base : Base) : List Char := base.scheme.text ++ [':', '/', '/'] ++ base.host

def Base.root (base : Base) : Root where
  scheme := base.scheme.text
  host := base.host
  alpha := by cases base.scheme <;> decide
  schemeChars := by
    cases base.scheme with
    | http => exact List.all_eq_true.1 (by decide)
    | https => exact List.all_eq_true.1 (by decide)
  plain := base.plain

/-- The characters of a path that are written as they are. -/
def isPathChar (c : Char) : Bool := isUnreserved c || c == '/'

theorem of_isUnreserved (h : isUnreserved c = true) : isCtl c = false ∧ c ≠ '#' := by
  have hrange : 48 ≤ c.toNat ∧ c.toNat ≤ 57 ∨ 65 ≤ c.toNat ∧ c.toNat ≤ 90 ∨
      97 ≤ c.toNat ∧ c.toNat ≤ 122 ∨ c = '-' ∨ c = '_' ∨ c = '.' ∨ c = '~' := by
    simpa [isUnreserved, Char.le_def, UInt32.le_iff_toNat_le, or_assoc] using h
  constructor
  · simp only [isCtl, Bool.or_eq_false_iff, decide_eq_false_iff_not, beq_eq_false_iff_ne]
    rcases hrange with hrange | hrange | hrange | rfl | rfl | rfl | rfl
    · omega
    · omega
    · omega
    all_goals decide
  · rintro rfl
    cases h

theorem of_isSchemeChar (h : isSchemeChar c = true) : isCtl c = false ∧ c ≠ '#' := by
  have halpha : c.isAlpha =
      (decide (65 ≤ c.val ∧ c.val ≤ 90) || (97 ≤ c.val && c.val ≤ 122)) := rfl
  have hcases : isUnreserved c = true ∨ c = '+' := by
    simp only [isSchemeChar, isUnreserved, halpha, Char.le_def] at h ⊢
    grind
  rcases hcases with h | rfl
  · exact of_isUnreserved h
  · decide

/-- No part of a URL of the form `root/path?query` has a character of another part's delimiters. -/
theorem absolute_char (root : Root) (hpath : ∀ c ∈ path, isPathChar c = true)
    (hquery : ∀ c ∈ query, isQueryChar c = true) (hc : c ∈ root.text ++ (path ++ '?' :: query)) :
    isCtl c = false ∧ c ≠ '#' := by
  simp only [Root.text, List.mem_append, List.mem_cons, List.not_mem_nil, or_false] at hc
  rcases hc with ((hc | hc) | hc) | hc | rfl | hc
  · exact of_isSchemeChar (root.schemeChars c hc)
  · rcases hc with rfl | rfl | rfl <;> decide
  · have h := root.plain c hc
    simp only [isHostChar, Bool.and_eq_true, Bool.not_eq_true', decide_eq_true_eq, List.mem_cons,
      not_or] at h
    exact ⟨h.1, h.2.2.2.2.1⟩
  · have h := hpath c hc
    simp only [isPathChar, Bool.or_eq_true, beq_iff_eq] at h
    rcases h with h | rfl
    · exact of_isUnreserved h
    · decide
  · decide
  · have h := hquery c hc
    simp only [isQueryChar, isEscaped, Bool.or_eq_true, beq_iff_eq] at h
    rcases h with (((h | rfl) | rfl) | rfl) | rfl
    · exact of_isUnreserved h
    all_goals decide

section
variable {root : Root} {path query : List Char} (hslash : path.head? = some '/')
  (hpath : ∀ c ∈ path, isPathChar c = true) (hquery : ∀ c ∈ query, isQueryChar c = true)

/-- The host ends where the path begins. -/
theorem span_host (root : Root) (hslash : path.head? = some '/') (p : Char → Bool)
    (hp : ∀ c, p c = true ∨ c ∈ ['/', '?', '#']) (hstop : p '/' = false) (rest : List Char) :
    (root.host ++ (path ++ rest)).takeWhile p = root.host ∧
      (root.host ++ (path ++ rest)).dropWhile p = path ++ rest := by
  refine span_append (fun c hc => ?_) ?_
  · rcases hp c with h | h
    · exact h
    · have hhost := root.plain c hc
      simp only [List.mem_cons, List.not_mem_nil, or_false] at h
      rcases h with rfl | rfl | rfl <;> cases hhost
  · intro c hc
    rw [List.head?_append, hslash] at hc
    cases hc
    exact hstop

include hpath in
theorem not_mem_path (hc : isPathChar c = false) : c ∉ path := by
  intro hmem
  rw [hpath c hmem] at hc
  cases hc

theorem not_mem_host (root : Root) (hc : isHostChar c = false) : c ∉ root.host := by
  intro hmem
  rw [root.plain c hmem] at hc
  cases hc

theorem getScheme_root (root : Root) (rest : List Char) :
    getScheme (root.text ++ rest) = some (root.scheme, '/' :: '/' :: (root.host ++ rest)) := by
  have hsplit : root.text ++ rest =
      root.scheme ++ (':' :: '/' :: '/' :: (root.host ++ rest)) := by
    simp [Root.text]
  have hstop : ∀ c, (':' :: '/' :: '/' :: (root.host ++ rest)).head? = some c →
      isSchemeChar c = false := by
    intro c hc
    cases hc
    decide
  obtain ⟨htake, hdrop⟩ := span_append root.schemeChars hstop
  have halpha := root.alpha
  rw [hsplit, getScheme, htake, hdrop]
  cases hs : root.scheme with
  | nil =>
    rw [hs] at halpha
    cases halpha
  | cons c scheme =>
    rw [hs, List.head?_cons, Option.any_some] at halpha
    exact congrArg some (if_pos halpha)

include hslash hpath hquery in
/-- **`net/url` finds the path and the query.** -/
theorem parse_root (hhost : authority root.host = true) :
    parse authority (root.text ++ (path ++ '?' :: query)) = some ⟨path, query⟩ := by
  have hchar := fun c (hc : c ∈ root.text ++ (path ++ '?' :: query)) =>
    absolute_char root hpath hquery hc
  have hfragment : cut '#' (root.text ++ (path ++ '?' :: query)) =
      (root.text ++ (path ++ '?' :: query), []) :=
    cut_eq_self fun hmem => (hchar _ hmem).2 rfl
  have hctl : (root.text ++ (path ++ '?' :: query)).any isCtl = false :=
    List.any_eq_false.2 fun c hc => by rw [(hchar c hc).1]; exact Bool.false_ne_true
  have hstar : root.text ++ (path ++ '?' :: query) ≠ ['*'] := by
    intro heq
    have hlen := congrArg List.length heq
    simp [Root.text] at hlen
    omega
  have hcut : cut '?' ('/' :: '/' :: (root.host ++ (path ++ '?' :: query))) =
      ('/' :: '/' :: (root.host ++ path), query) := by
    have hnot : '?' ∉ '/' :: '/' :: (root.host ++ path) := by
      simp [not_mem_host root (c := '?') (by decide), not_mem_path hpath (c := '?') (by decide)]
    have := cut_append hnot query
    rwa [List.cons_append, List.cons_append, List.append_assoc] at this
  have hspan := span_host root hslash (· != '/') (fun c => by
    by_cases h : c = '/'
    · exact .inr (by simp [h])
    · exact .inl (bne_iff_ne.2 h)) (by decide) []
  rw [List.append_nil] at hspan
  have hrest : parseRest authority root.scheme ('/' :: '/' :: (root.host ++ path)) query =
      some ⟨path, query⟩ := by
    have hscheme : ¬ (root.scheme = [] ∧ (root.host ++ path).head? = some '/') := by
      rintro ⟨hnil, -⟩
      have halpha := root.alpha
      rw [hnil] at halpha
      cases halpha
    rw [parseRest, if_neg hscheme, hspan.1, if_pos hhost, hspan.2, setPath,
      unescape_eq_self fun c hc => ?_, Option.map_some]
    rintro rfl
    exact not_mem_path hpath (by decide) hc
  rw [parse, hfragment]
  dsimp only
  rw [hctl, if_neg Bool.false_ne_true, if_neg hstar, getScheme_root]
  dsimp only [Option.bind_eq_bind, Option.bind_some]
  rw [hcut, hrest]
  rfl

variable {base : Base}

include hslash hpath hquery in
/-- **The URL Standard finds the path and the query.** -/
theorem splitWeb_absolute :
    splitWeb (base.text ++ (path ++ '?' :: query)) = some ⟨path, query⟩ := by
  have hscheme : dropScheme (base.text ++ (path ++ '?' :: query)) =
      some (base.host ++ (path ++ '?' :: query)) := by
    unfold Base.text
    cases base.scheme <;> rfl
  have hfragment : cut '#' (base.host ++ (path ++ '?' :: query)) =
      (base.host ++ (path ++ '?' :: query), []) := by
    refine cut_eq_self fun hmem => (absolute_char base.root hpath hquery ?_).2 rfl
    rw [Root.text, List.append_assoc]
    exact List.mem_append_right _ hmem
  have hspan : (base.host ++ (path ++ '?' :: query)).dropWhile (· ∉ ['/', '?']) =
      path ++ '?' :: query := by
    refine (span_host base.root hslash (· ∉ ['/', '?']) (fun c => ?_) (by decide) _).2
    by_cases h : c ∈ ['/', '?']
    · exact .inr (List.mem_of_mem_dropLast (by simpa using h))
    · exact .inl (decide_eq_true h)
  rw [splitWeb, hscheme, Option.map_some, hfragment]
  dsimp only
  rw [hspan, cut_append (not_mem_path hpath (by decide))]

end

end Aegis.Url
