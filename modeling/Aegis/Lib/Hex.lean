import Mathlib.Tactic

/-!
# Hexadecimal text

Numbers as a given number of lower-case digits, and bytes as two digits each. Encoded bytes decode
to themselves; the text of a number determines it. Decoding accepts digits of either case.
-/

namespace Aegis

/-! ## Digits and numbers -/

/-- The lower-case hexadecimal digit of a value below sixteen. -/
def hexDigit (n : Nat) : Char := Char.ofNat (if n < 10 then 48 + n else 87 + n)

/-- The last `k` hexadecimal digits of `n`, the most significant first. -/
def hexText : Nat → Nat → List Char
  | 0, _ => []
  | k + 1, n => hexText k (n / 16) ++ [hexDigit (n % 16)]

/-- The characters of hexadecimal text. -/
def isLowerHexDigit (c : Char) : Bool := '0' ≤ c && c ≤ '9' || 'a' ≤ c && c ≤ 'f'

theorem isLowerHexDigit_hexDigit (h : n < 16) : isLowerHexDigit (hexDigit n) = true := by
  interval_cases n <;> decide

/-- Every such character is the digit of a value. -/
theorem exists_hexDigit (h : isLowerHexDigit c = true) : ∃ n : Fin 16, c = hexDigit n := by
  have hcases : 48 ≤ c.toNat ∧ c.toNat ≤ 57 ∨ 97 ≤ c.toNat ∧ c.toNat ≤ 102 := by
    simpa [isLowerHexDigit, Char.le_def, UInt32.le_iff_toNat_le] using h
  have hdigit : ∀ k, 48 ≤ k ∧ k ≤ 57 ∨ 97 ≤ k ∧ k ≤ 102 → ∃ n : Fin 16, k = (hexDigit n).toNat := by
    rintro k (⟨hlo, hhi⟩ | ⟨hlo, hhi⟩) <;> interval_cases k <;> decide
  obtain ⟨n, hn⟩ := hdigit _ hcases
  exact ⟨n, Char.toNat_inj.1 hn⟩

theorem hexDigit_inj (hm : m < 16) (hn : n < 16) (h : hexDigit m = hexDigit n) : m = n := by
  interval_cases m <;> interval_cases n <;> first | rfl | exact absurd h (by decide)

@[simp] theorem length_hexText (k n : Nat) : (hexText k n).length = k := by
  induction k generalizing n with
  | zero => rfl
  | succ k ih => simp [hexText, ih]

theorem isLowerHexDigit_of_mem_hexText (h : c ∈ hexText k n) : isLowerHexDigit c = true := by
  induction k generalizing n with
  | zero => cases h
  | succ k ih =>
    rcases List.mem_append.1 h with h | h
    · exact ih h
    · rw [List.mem_singleton.1 h]
      exact isLowerHexDigit_hexDigit (Nat.mod_lt _ (by decide))

/-- `k` digits determine a number below `16 ^ k`. -/
theorem hexText_inj (hm : m < 16 ^ k) (hn : n < 16 ^ k) (h : hexText k m = hexText k n) :
    m = n := by
  induction k generalizing m n with
  | zero => omega
  | succ k ih =>
    obtain ⟨hinit, hlast⟩ := List.append_inj' h rfl
    have hdiv : m / 16 = n / 16 :=
      ih (Nat.div_lt_of_lt_mul (by rwa [pow_succ, mul_comm] at hm))
        (Nat.div_lt_of_lt_mul (by rwa [pow_succ, mul_comm] at hn)) hinit
    have hmod : m % 16 = n % 16 :=
      hexDigit_inj (Nat.mod_lt _ (by decide)) (Nat.mod_lt _ (by decide))
        (List.head_eq_of_cons_eq hlast)
    omega

/-! ## Bytes -/

/-- The value of a hexadecimal digit, in either case. -/
def hexValue (c : Char) : Option Nat :=
  if '0' ≤ c ∧ c ≤ '9' then some (c.toNat - 48)
  else if 'a' ≤ c ∧ c ≤ 'f' then some (c.toNat - 87)
  else if 'A' ≤ c ∧ c ≤ 'F' then some (c.toNat - 55)
  else none

theorem hexValue_hexDigit (h : n < 16) : hexValue (hexDigit n) = some n := by
  interval_cases n <;> decide

/-- The number of a hexadecimal text. -/
def hexNumber (text : List Char) : Option Nat :=
  text.foldlM (fun n c => (hexValue c).map (16 * n + ·)) 0

theorem hexNumber_hexText (k n : Nat) : hexNumber (hexText k n) = some (n % 16 ^ k) := by
  induction k generalizing n with
  | zero => simp [hexNumber, hexText, Nat.mod_one]
  | succ k ih =>
    have hmod : 16 * (n / 16 % 16 ^ k) + n % 16 = n % 16 ^ (k + 1) := by
      rw [pow_succ', Nat.mod_mul, add_comm]
    rw [hexText, hexNumber, List.foldlM_append, ← hexNumber, ih]
    simp only [List.foldlM_cons, List.foldlM_nil, hexValue_hexDigit (Nat.mod_lt n (by decide)),
      Option.map_some, Option.bind_eq_bind, Option.bind_some, Option.pure_def, hmod]

/-- The digits of lower-case text all have values. -/
theorem exists_mapM_hexValue {text : List Char} (h : ∀ c ∈ text, isLowerHexDigit c = true) :
    ∃ digits, text.mapM hexValue = some digits := by
  induction text with
  | nil => exact ⟨[], rfl⟩
  | cons c text ih =>
    obtain ⟨n, rfl⟩ := exists_hexDigit (h c List.mem_cons_self)
    obtain ⟨digits, hdigits⟩ := ih fun c' hc' => h c' (List.mem_cons_of_mem _ hc')
    refine ⟨n :: digits, ?_⟩
    rw [List.mapM_cons, hexValue_hexDigit n.isLt, hdigits]
    rfl

/-- Lower-case text is the text of the number that its digits make. -/
theorem eq_hexText (hlower : ∀ c ∈ text, isLowerHexDigit c = true)
    (h : text.mapM hexValue = some digits) :
    text = hexText text.length (digits.foldl (fun n d => 16 * n + d) 0) ∧
      digits.foldl (fun n d => 16 * n + d) 0 < 16 ^ text.length := by
  -- the last digit is the one that the text of a number ends with
  induction text using List.reverseRecOn generalizing digits with
  | nil =>
    cases h
    exact ⟨rfl, one_pos⟩
  | append_singleton text c ih =>
    obtain ⟨n, rfl⟩ := exists_hexDigit (hlower c (List.mem_append_right _ List.mem_cons_self))
    obtain ⟨init, hinit⟩ := exists_mapM_hexValue fun c hc => hlower c (List.mem_append_left _ hc)
    obtain ⟨htext, hlt⟩ := ih (fun c hc => hlower c (List.mem_append_left _ hc)) hinit
    have hlast : [hexDigit n].mapM hexValue = some [n.val] := by
      rw [List.mapM_cons, hexValue_hexDigit n.isLt]
      rfl
    rw [List.mapM_append, hinit, hlast] at h
    cases h
    have hn := n.isLt
    rw [List.foldl_append, List.length_append, List.length_singleton, pow_succ]
    simp only [List.foldl_cons, List.foldl_nil]
    constructor
    · rw [hexText, Nat.mul_add_div (by decide), Nat.div_eq_of_lt hn, Nat.mul_add_mod,
        Nat.mod_eq_of_lt hn, add_zero, ← htext]
    · omega

/-- Lower-case text has a byte for each digit. -/
theorem sum_utf8Size_of_isLowerHexDigit {text : List Char}
    (h : ∀ c ∈ text, isLowerHexDigit c = true) : (text.map Char.utf8Size).sum = text.length := by
  have hdigit : ∀ n : Fin 16, (hexDigit n).utf8Size = 1 := by decide
  have hone : text.map Char.utf8Size = text.map fun _ => 1 := by
    refine List.map_congr_left fun c hc => ?_
    obtain ⟨n, rfl⟩ := exists_hexDigit (h c hc)
    exact hdigit n
  rw [hone, List.map_const', List.sum_replicate, smul_eq_mul, mul_one]

/-- Two digits for each byte. -/
def encodeToString (bytes : List UInt8) : List Char := bytes.flatMap fun b => hexText 2 b.toNat

/-- The bytes of pairs of digits, if that is what the text is made of. -/
def decodeString : List Char → Option (List UInt8)
  | [] => some []
  | [_] => none
  | c :: c' :: text => do
    let hi ← hexValue c
    let lo ← hexValue c'
    let bytes ← decodeString text
    return UInt8.ofNat (16 * hi + lo) :: bytes

@[simp] theorem length_encodeToString (bytes : List UInt8) :
    (encodeToString bytes).length = 2 * bytes.length := by
  simp [encodeToString, List.length_flatMap, mul_comm]

theorem isLowerHexDigit_of_mem_encodeToString (h : c ∈ encodeToString bytes) :
    isLowerHexDigit c = true := by
  obtain ⟨b, -, hc⟩ := List.mem_flatMap.1 h
  exact isLowerHexDigit_of_mem_hexText hc

theorem encodeToString_cons (b : UInt8) (bytes : List UInt8) :
    encodeToString (b :: bytes) =
      hexDigit (b.toNat / 16) :: hexDigit (b.toNat % 16) :: encodeToString bytes := by
  have hb : b.toNat / 16 < 16 := Nat.div_lt_of_lt_mul b.toNat_lt
  simp [encodeToString, hexText, Nat.mod_eq_of_lt hb]

/-- **Encoded bytes decode to themselves.** -/
theorem decodeString_encodeToString (bytes : List UInt8) :
    decodeString (encodeToString bytes) = some bytes := by
  induction bytes with
  | nil => rfl
  | cons b bytes ih =>
    have hhi : b.toNat / 16 < 16 := Nat.div_lt_of_lt_mul b.toNat_lt
    have hlo : b.toNat % 16 < 16 := Nat.mod_lt _ (by decide)
    have hbyte : UInt8.ofNat (16 * (b.toNat / 16) + b.toNat % 16) = b := by
      rw [Nat.div_add_mod, UInt8.ofNat_toNat]
    rw [encodeToString_cons, decodeString, hexValue_hexDigit hhi, hexValue_hexDigit hlo, ih]
    simp only [Option.bind_eq_bind, Option.bind_some, Option.pure_def, hbyte]

theorem encodeToString_injective : Function.Injective encodeToString := by
  intro a b h
  have hdecode := congrArg decodeString h
  rwa [decodeString_encodeToString, decodeString_encodeToString, Option.some.injEq] at hdecode

end Aegis
