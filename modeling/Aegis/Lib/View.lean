import Mathlib.Tactic

/-!
# Views on a shared buffer

A view shows a range of a buffer that others may share (`View`). Cutting a part out of a view gives
a view on the same buffer (`subarray`), so the buffer of a part is not the part: the two are the
same only if the part shows all of the buffer (`toList_eq_buffer_iff`).
-/

namespace Aegis

/-- A view of `length` elements of a buffer, from `offset` on. -/
structure View (α : Type*) where
  buffer : List α
  offset : Nat
  length : Nat
  inside : offset + length ≤ buffer.length

namespace View

variable {α : Type*} (v : View α)

/-- The elements in view. -/
def toList : List α := (v.buffer.drop v.offset).take v.length

/-- The element at an index of the view. -/
def get? (i : Nat) : Option α := if i < v.length then v.buffer[v.offset + i]? else none

/-- The view of the elements from `lo` up to `hi`, where indices beyond the end stand for the
end. -/
def subarray (lo hi : Nat) : View α where
  buffer := v.buffer
  offset := v.offset + min lo v.length
  length := min hi v.length - min lo v.length
  inside := by
    have := v.inside
    omega

@[simp] theorem length_toList : v.toList.length = v.length := by
  have := v.inside
  rw [toList, List.length_take, List.length_drop]
  omega

theorem get?_eq (i : Nat) : v.get? i = v.toList[i]? := by
  rw [get?, toList]
  split
  · next h => rw [List.getElem?_take_of_lt h, List.getElem?_drop]
  · next h => rw [List.getElem?_eq_none (by rw [List.length_take]; omega)]

theorem length_subarray (h : hi ≤ v.length) : (v.subarray lo hi).length = hi - lo := by
  show min hi v.length - min lo v.length = hi - lo
  omega

/-- A part of a view shows that part of its elements. -/
theorem toList_subarray (lo hi : Nat) :
    (v.subarray lo hi).toList = (v.toList.drop lo).take (hi - lo) := by
  show (v.buffer.drop (v.offset + min lo v.length)).take (min hi v.length - min lo v.length) = _
  rw [toList, List.drop_take, List.take_take, List.drop_drop]
  rcases Nat.le_total lo v.length with hle | hge
  · rw [Nat.min_eq_left hle, Nat.sub_min_sub_right]
  · rw [Nat.sub_eq_zero_of_le hge, Nat.min_zero, Nat.min_eq_right hge,
      Nat.sub_eq_zero_of_le (Nat.min_le_right _ _), List.take_zero, List.take_zero]

theorem toList_isInfix : v.toList <:+: v.buffer :=
  (List.take_prefix _ _).isInfix.trans (List.drop_suffix _ _).isInfix

/-- A view shows all of its buffer exactly if it is as long. -/
theorem toList_eq_buffer_iff : v.toList = v.buffer ↔ v.length = v.buffer.length := by
  rw [← v.length_toList]
  exact ⟨congrArg List.length, v.toList_isInfix.eq_of_length⟩

end View

end Aegis
