import Mathlib.Tactic

/-!
# Text in bytes

The characters of a byte sequence as Go's `range` over a string yields them: a byte that begins no
well-formed UTF-8 sequence is taken alone and read as U+FFFD. Bytes that encode a text read as that
text.
-/

namespace Aegis.Utf8

/-- The next character, and what follows it. -/
def nextRune (b : ByteArray) : Char × ByteArray :=
  match b.utf8DecodeChar? 0 with
  | some c => (c, b.extract c.utf8Size b.size)
  | none => ('�', b.extract 1 b.size)

/-- At most `k` characters from the start. -/
def runesUpTo : Nat → ByteArray → List Char
  | 0, _ => []
  | k + 1, b => if b.size = 0 then [] else (nextRune b).1 :: runesUpTo k (nextRune b).2

/-- The characters of a byte sequence: there are not more than it has bytes. -/
def runes (b : ByteArray) : List Char := runesUpTo b.size b

theorem size_utf8Encode_singleton (c : Char) : [c].utf8Encode.size = c.utf8Size := by
  rw [List.utf8Encode_singleton, List.size_toByteArray, String.length_utf8EncodeChar]

/-- A text has not more characters than its encoding has bytes. -/
theorem length_le_size (l : List Char) : l.length ≤ l.utf8Encode.size := by
  induction l with
  | nil => exact Nat.zero_le _
  | cons c l ih =>
    rw [List.utf8Encode_cons, ByteArray.size_append, size_utf8Encode_singleton, List.length_cons]
    have := c.utf8Size_pos
    omega

theorem nextRune_utf8Encode (c : Char) (l : List Char) :
    nextRune (c :: l).utf8Encode = (c, l.utf8Encode) := by
  rw [nextRune, List.utf8DecodeChar?_utf8Encode_cons]
  refine Prod.ext rfl ?_
  rw [List.utf8Encode_cons]
  exact ByteArray.extract_append_eq_right (size_utf8Encode_singleton c).symm ByteArray.size_append

theorem runesUpTo_utf8Encode (h : l.length ≤ k) : runesUpTo k l.utf8Encode = l := by
  induction l generalizing k with
  | nil => cases k <;> rfl
  | cons c l ih =>
    obtain ⟨k, rfl⟩ := Nat.exists_eq_succ_of_ne_zero (Nat.ne_of_gt (Nat.zero_lt_of_lt h))
    have hsize := length_le_size (c :: l)
    rw [List.length_cons] at hsize
    rw [runesUpTo, if_neg (by omega), nextRune_utf8Encode, ih (Nat.le_of_succ_le_succ h)]

/-- **Encoded text reads as it was.** -/
theorem runes_utf8Encode (l : List Char) : runes l.utf8Encode = l :=
  runesUpTo_utf8Encode (length_le_size l)

end Aegis.Utf8
