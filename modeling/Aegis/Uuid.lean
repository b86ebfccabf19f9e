import Aegis.Lib.Hex

/-!
# Identifiers and their text

UUIDs with their text form, the 36 characters `8-4-4-4-12` in lower-case hexadecimal, and
`node_label` (db/stored-procedures.sql), the text with dashes replaced by underscores that names a
node in a lineage path. Both forms determine the identifier, and neither contains a character
other than the sixteen digits and its separator.
-/

namespace Aegis

/-- A UUID as the 128-bit number Postgres orders it by. -/
abbrev Uuid : Type := BitVec 128

namespace Uuid

/-- The 32 hexadecimal digits of a UUID. -/
def digits (u : Uuid) : List Char := hexText 32 u.toNat

/-- The digits grouped `8-4-4-4-12` with a separator in between. -/
def grouped (sep : Char) (u : Uuid) : List Char :=
  u.digits.take 8 ++ sep :: ((u.digits.drop 8).take 4 ++ sep :: ((u.digits.drop 12).take 4 ++
    sep :: ((u.digits.drop 16).take 4 ++ sep :: u.digits.drop 20)))

/-- `id::text`. -/
def text (u : Uuid) : List Char := u.grouped '-'

/-- `node_label(id)`: `replace(id::text, '-', '_')`. -/
def nodeLabel (u : Uuid) : List Char := u.text.map fun c => if c = '-' then '_' else c

@[simp] theorem length_grouped (sep : Char) (u : Uuid) : (u.grouped sep).length = 36 := by
  simp [grouped, digits]

theorem append_groups (u : Uuid) :
    u.digits.take 8 ++ ((u.digits.drop 8).take 4 ++ ((u.digits.drop 12).take 4 ++
      ((u.digits.drop 16).take 4 ++ u.digits.drop 20))) = u.digits := by
  conv_rhs => rw [← List.take_append_drop 8 u.digits, ← List.take_append_drop 4 (u.digits.drop 8),
    List.drop_drop, ← List.take_append_drop 4 (u.digits.drop 12), List.drop_drop,
    ← List.take_append_drop 4 (u.digits.drop 16), List.drop_drop]

theorem group_subset (u : Uuid) (a b : Nat) : (u.digits.drop a).take b ⊆ u.digits :=
  List.Subset.trans (List.take_subset _ _) (List.drop_subset _ _)

/-- Dropping the separators from the grouped text leaves the digits. -/
theorem filter_grouped (hsep : isLowerHexDigit sep = false) (u : Uuid) :
    (u.grouped sep).filter (· != sep) = u.digits := by
  have hkeep : ∀ l : List Char, l ⊆ u.digits → l.filter (· != sep) = l := by
    intro l hl
    refine List.filter_eq_self.2 fun c hc => ?_
    have hd := isLowerHexDigit_of_mem_hexText (hl hc)
    refine bne_iff_ne.2 ?_
    rintro rfl
    rw [hsep] at hd
    cases hd
  simp only [grouped, List.filter_append, List.filter_cons, bne_self_eq_false, Bool.false_eq_true,
    if_false]
  rw [hkeep _ (List.take_subset _ _), hkeep _ (u.group_subset 8 4), hkeep _ (u.group_subset 12 4),
    hkeep _ (u.group_subset 16 4), hkeep _ (List.drop_subset _ _), append_groups]

/-- The grouped text determines the UUID. -/
theorem grouped_inj (hsep : isLowerHexDigit sep = false) {u u' : Uuid}
    (h : u.grouped sep = u'.grouped sep) : u = u' :=
  BitVec.eq_of_toNat_eq (hexText_inj (by simpa using u.isLt) (by simpa using u'.isLt)
    (show u.digits = u'.digits by rw [← filter_grouped hsep u, h, filter_grouped hsep u']))

theorem nodeLabel_eq_grouped (u : Uuid) : u.nodeLabel = u.grouped '_' := by
  have hkeep : ∀ l : List Char, l ⊆ u.digits → l.map (fun c => if c = '-' then '_' else c) = l := by
    intro l hl
    refine (List.map_congr_left fun c hc => if_neg ?_).trans (List.map_id l)
    rintro rfl
    exact absurd (isLowerHexDigit_of_mem_hexText (hl hc)) (by decide)
  simp only [nodeLabel, text, grouped, List.map_append, List.map_cons, if_true]
  rw [hkeep _ (List.take_subset _ _), hkeep _ (u.group_subset 8 4), hkeep _ (u.group_subset 12 4),
    hkeep _ (u.group_subset 16 4), hkeep _ (List.drop_subset _ _)]

@[simp] theorem length_nodeLabel (u : Uuid) : u.nodeLabel.length = 36 := by
  rw [nodeLabel_eq_grouped, length_grouped]

/-- The grouped text has hexadecimal digits and separators. -/
theorem of_mem_grouped {u : Uuid} (h : c ∈ u.grouped sep) : isLowerHexDigit c = true ∨ c = sep := by
  have hdigit : ∀ {l : List Char}, l ⊆ u.digits → c ∈ l → isLowerHexDigit c = true :=
    fun hl hc => isLowerHexDigit_of_mem_hexText (hl hc)
  simp only [grouped, List.mem_append, List.mem_cons] at h
  rcases h with h | h | h | h | h | h | h | h | h
  · exact .inl (hdigit (List.take_subset _ _) h)
  · exact .inr h
  · exact .inl (hdigit (u.group_subset 8 4) h)
  · exact .inr h
  · exact .inl (hdigit (u.group_subset 12 4) h)
  · exact .inr h
  · exact .inl (hdigit (u.group_subset 16 4) h)
  · exact .inr h
  · exact .inl (hdigit (List.drop_subset _ _) h)

/-- The text of a UUID determines it. -/
theorem text_inj {u u' : Uuid} (h : u.text = u'.text) : u = u' := grouped_inj (by decide) h

/-! ## Parsing -/

/-- The digits of text in five groups, whose dashes have to be in their places. -/
def ungrouped (s : List Char) : Option (List Char) :=
  if s[8]? = some '-' ∧ s[13]? = some '-' ∧ s[18]? = some '-' ∧ s[23]? = some '-' then
    some (s.take 8 ++ ((s.drop 9).take 4 ++ ((s.drop 14).take 4 ++ ((s.drop 19).take 4 ++
      (s.drop 24).take 12))))
  else none

/-- The UUID of 32 digits, in either case. -/
def ofDigits (digits : List Char) : Option Uuid := (hexNumber digits).map (BitVec.ofNat 128)

/-- `uuid.Parse`, for text of bytes: in five groups, also behind `urn:uuid:` or between two
characters, which should be braces, or as bare digits. -/
def parse (s : List Char) : Option Uuid :=
  if s.length = 36 then (ungrouped s).bind ofDigits
  else if s.length = 45 then
    if (s.take 9).map Char.toLower = ['u', 'r', 'n', ':', 'u', 'u', 'i', 'd', ':'] then
      (ungrouped (s.drop 9)).bind ofDigits
    else none
  else if s.length = 38 then (ungrouped (s.drop 1)).bind ofDigits
  else if s.length = 32 then ofDigits s
  else none

theorem ofDigits_digits (u : Uuid) : ofDigits u.digits = some u := by
  rw [ofDigits, digits, hexNumber_hexText, Option.map_some, Nat.mod_eq_of_lt (by exact u.isLt),
    BitVec.ofNat_toNat, BitVec.setWidth_eq]

theorem ungrouped_append (ha : a.length = 8) (hb : b.length = 4) (hc : c.length = 4)
    (hd : d.length = 4) (he : e.length = 12) :
    ungrouped (a ++ '-' :: (b ++ '-' :: (c ++ '-' :: (d ++ '-' :: e)))) =
      some (a ++ (b ++ (c ++ (d ++ e)))) := by
  have hdrop : ∀ {l : List Char} {n : Nat}, l.length ≤ n → l.drop n = [] := List.drop_eq_nil_of_le
  rw [ungrouped, if_pos]
  · simp (disch := omega) [List.drop_append, ha, hb, hc, hd, he, hdrop]
  · simp [List.getElem?_append, ha, hb, hc, hd]

theorem ungrouped_grouped (u : Uuid) : ungrouped (u.grouped '-') = some u.digits := by
  have hlen : u.digits.length = 32 := length_hexText 32 _
  have hgroups := append_groups u
  rw [grouped, ungrouped_append, hgroups]
  all_goals simp [hlen]

/-- **The text of a UUID is parsed back.** -/
theorem parse_text (u : Uuid) : parse u.text = some u := by
  rw [parse, text, if_pos (length_grouped _ _), ungrouped_grouped, Option.bind_some,
    ofDigits_digits]

end Uuid

end Aegis
