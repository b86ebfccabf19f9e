import Aegis.Lib.Hex

/-!
# Hashes in hexadecimal (`internal/cas/gc.go`)

`decodeHex`, which reads the hashes of `FindOrphans` back. It works on bytes, so the text of
`hex.EncodeToString` is given to it in ASCII.
-/

namespace Aegis.Cas

/-- The `switch` on a digit. -/
def nibble (c : UInt8) : Option UInt8 :=
  if 48 ≤ c ∧ c ≤ 57 then some (c - 48)
  else if 97 ≤ c ∧ c ≤ 102 then some (c - 97 + 10)
  else if 65 ≤ c ∧ c ≤ 70 then some (c - 65 + 10)
  else none

/-- The loop of `decodeHex`. -/
def decodePairs : List UInt8 → Option (List UInt8)
  | c :: c' :: s => do
    let hi ← nibble c
    let lo ← nibble c'
    let b ← decodePairs s
    return (hi <<< 4 ||| lo) :: b
  | _ => some []

def decodeHex (s : List UInt8) : Option (List UInt8) :=
  if s.length % 2 ≠ 0 then none else decodePairs s

/-- The bytes of a text in ASCII. -/
def ascii (text : List Char) : List UInt8 := text.map fun c => UInt8.ofNat c.toNat

/-- The characters `0-9`, `a-f` and `A-F`. -/
def isHexByte (c : UInt8) : Bool := c ∈ ascii "0123456789abcdefABCDEF".toList

/-- A letter in lower case, any other byte as it is. -/
def lowerByte (c : UInt8) : UInt8 := if 65 ≤ c ∧ c ≤ 90 then c + 32 else c

/-- A byte of two digits. -/
theorem nibble_halves (x : UInt8) :
    nibble (UInt8.ofNat (hexDigit (x.toNat / 16)).toNat) = some (x >>> 4) ∧
      nibble (UInt8.ofNat (hexDigit (x.toNat % 16)).toNat) = some (x &&& 15) ∧
      x >>> 4 <<< 4 ||| x &&& 15 = x := by
  obtain ⟨b⟩ := x
  revert b
  decide +kernel

theorem decodePairs_ascii (b : List UInt8) : decodePairs (ascii (encodeToString b)) = some b := by
  induction b with
  | nil => rfl
  | cons x b ih =>
    obtain ⟨hhi, hlo, hx⟩ := nibble_halves x
    rw [ascii] at ih
    simp [encodeToString_cons, ascii, decodePairs, hhi, hlo, ih, hx]

/-- Digits and their values. -/
theorem nibble_cases (c : UInt8) :
    nibble c = none ∧ isHexByte c = false ∨ ∃ n : Fin 16, nibble c = some (UInt8.ofNat n) ∧
      isHexByte c = true ∧ lowerByte c = UInt8.ofNat (hexDigit n).toNat := by
  obtain ⟨b⟩ := c
  revert b
  decide +kernel

theorem toNat_halves (m n : Fin 16) :
    (UInt8.ofNat m <<< 4 ||| UInt8.ofNat n).toNat / 16 = m ∧
      (UInt8.ofNat m <<< 4 ||| UInt8.ofNat n).toNat % 16 = n := by
  revert m n
  decide

/-- Pairs are decoded exactly if they are digits, and their bytes encode them in lower case. -/
theorem map_decodePairs (heven : s.length % 2 = 0) :
    (decodePairs s).map (fun b => ascii (encodeToString b)) =
      if s.all isHexByte then some (s.map lowerByte) else none := by
  induction s using decodePairs.induct with
  | case1 c c' s ih =>
    have ih := ih (by simp only [List.length_cons] at heven; omega)
    rcases nibble_cases c with ⟨hc, hhex⟩ | ⟨m, hc, hhex, hm⟩
    · simp [decodePairs, hc, hhex]
    rcases nibble_cases c' with ⟨hc', hhex'⟩ | ⟨n, hc', hhex', hn⟩
    · simp [decodePairs, hc, hc', hhex']
    have henc (b : List UInt8) :
        ascii (encodeToString ((UInt8.ofNat m <<< 4 ||| UInt8.ofNat n) :: b)) =
          lowerByte c :: lowerByte c' :: ascii (encodeToString b) := by
      rw [encodeToString_cons, (toNat_halves m n).1, (toNat_halves m n).2, hm, hn]
      rfl
    have hstep : (decodePairs (c :: c' :: s)).map (fun b => ascii (encodeToString b)) =
        ((decodePairs s).map fun b => ascii (encodeToString b)).map
          (lowerByte c :: lowerByte c' :: ·) := by
      cases hs : decodePairs s <;> simp [decodePairs, hc, hc', hs, henc]
    rw [hstep, ih]
    cases hall : s.all isHexByte <;> simp [hhex, hhex', hall]
  | case2 s hs =>
    cases s with
    | nil => rfl
    | cons c s => cases s with
      | nil => cases heven
      | cons c' s => exact (hs _ _ _ rfl).elim

/-- **The hexadecimal text of bytes is decoded to them**, and what is decoded at all is an even
number of digits, which the bytes encode in lower case. -/
theorem decodeHex_codec (b s : List UInt8) :
    decodeHex (ascii (encodeToString b)) = some b ∧
      ((decodeHex s).isSome ↔ s.length % 2 = 0 ∧ ∀ c ∈ s, isHexByte c = true) ∧
      ∀ b' ∈ decodeHex s, ascii (encodeToString b') = s.map lowerByte := by
  constructor
  · rw [decodeHex, decodePairs_ascii, if_neg (by simp [ascii])]
  by_cases heven : s.length % 2 = 0
  · have hmap := map_decodePairs heven
    rw [decodeHex, if_neg (not_not.2 heven)]
    cases hs : decodePairs s <;> grind
  · simp [decodeHex, heven]

end Aegis.Cas
