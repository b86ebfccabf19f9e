import Mathlib.Data.List.AList
import Mathlib.Tactic

/-!
# Tables

A table is an association list without repeated keys, Mathlib's `AList`: rows under a primary key
that cannot hold two rows of one key. This module adds what queries over tables need: changing a
row in place, the keys of the rows a condition picks, how many rows there are of a kind, and sums
over the rows, with how each of the updates changes these numbers.
-/

namespace Aegis

/-- Rows of type `V` under a primary key of type `K`. -/
abbrev Table (K V : Type) : Type := AList fun _ : K => V

namespace Table

variable {K V : Type} [DecidableEq K]

/-- Change the row under `k`, if there is one. -/
def modify (k : K) (f : V → V) (t : Table K V) : Table K V :=
  match t.lookup k with
  | some v => t.insert k (f v)
  | none => t

/-- Add a row under `k`, unless there is one. -/
def insertNew (k : K) (v : V) (t : Table K V) : Table K V :=
  if (t.lookup k).isSome then t else t.insert k v

/-- The keys of the rows that satisfy `p`. -/
def keysWhere (p : K → V → Bool) (t : Table K V) : List K :=
  (t.entries.filter fun e => p e.1 e.2).map Sigma.fst

/-- The number of rows that satisfy `p`. -/
def count (p : K → V → Bool) (t : Table K V) : Nat :=
  t.entries.countP fun e => p e.1 e.2

/-- The sum of `f` over the rows. -/
def total (f : V → Int) (t : Table K V) : Int := (t.entries.map fun e => f e.2).sum

theorem lookup_insert_eq (k k' : K) (v : V) (t : Table K V) :
    AList.lookup k' (t.insert k v) = if k' = k then some v else t.lookup k' := by
  split
  · next h =>
    subst h
    exact AList.lookup_insert t
  · next h => exact AList.lookup_insert_ne h

theorem lookup_erase_eq (k k' : K) (t : Table K V) :
    AList.lookup k' (t.erase k) = if k' = k then none else t.lookup k' := by
  split
  · next h =>
    subst h
    exact AList.lookup_erase _ t
  · next h => exact AList.lookup_erase_ne h

theorem lookup_modify (k k' : K) (f : V → V) (t : Table K V) :
    AList.lookup k' (modify k f t) = if k' = k then (t.lookup k').map f else t.lookup k' := by
  unfold modify
  split
  · next v hv =>
    rw [lookup_insert_eq]
    split
    · next h => rw [h, hv, Option.map_some]
    · rfl
  · next hv =>
    split
    · next h => rw [h, hv, Option.map_none]
    · rfl

theorem lookup_insertNew (k k' : K) (v : V) (t : Table K V) :
    AList.lookup k' (insertNew k v t) =
      if k' = k then some ((t.lookup k').getD v) else t.lookup k' := by
  unfold insertNew
  cases hk : t.lookup k with
  | some r =>
    rw [Option.isSome_some, if_pos rfl]
    split
    · next h => rw [h, hk, Option.getD_some]
    · rfl
  | none =>
    rw [Option.isSome_none, if_neg Bool.false_ne_true, lookup_insert_eq]
    split
    · next h => rw [h, hk, Option.getD_none]
    · rfl

/-- Erasing several rows. -/
theorem lookup_foldl_erase (ks : List K) (k : K) (t : Table K V) :
    AList.lookup k (ks.foldl (fun t k => t.erase k) t) = if k ∈ ks then none else t.lookup k := by
  induction ks generalizing t with
  | nil => rfl
  | cons k' ks ih =>
    rw [List.foldl_cons, ih, lookup_erase_eq]
    by_cases hk : k ∈ ks
    · rw [if_pos hk, if_pos (List.mem_cons_of_mem _ hk)]
    · simp only [List.mem_cons, hk, or_false, if_false]

variable {k : K} {v : V} {t : Table K V} {p : K → V → Bool}

theorem mem_entries : ⟨k, v⟩ ∈ t.entries ↔ t.lookup k = some v :=
  AList.mem_lookup_iff.symm

theorem mem_keysWhere : k ∈ keysWhere p t ↔ ∃ v, t.lookup k = some v ∧ p k v = true := by
  simp only [keysWhere, List.mem_map, List.mem_filter]
  constructor
  · rintro ⟨⟨k', v⟩, ⟨hm, hp⟩, rfl⟩
    exact ⟨v, mem_entries.1 hm, hp⟩
  · rintro ⟨v, hv, hp⟩
    exact ⟨⟨k, v⟩, ⟨mem_entries.2 hv, hp⟩, rfl⟩

omit [DecidableEq K] in
theorem nodup_keysWhere (p : K → V → Bool) (t : Table K V) : (keysWhere p t).Nodup :=
  (List.filter_sublist.map Sigma.fst).nodup t.keys_nodup

/-- Tables with the same rows of a kind. -/
theorem count_congr (h : ∀ k v, p k v = true → (t.lookup k = some v ↔ t'.lookup k = some v)) :
    count p t = count p t' := by
  have hlength : ∀ t : Table K V, count p t = (keysWhere p t).length := by
    intro t
    rw [count, keysWhere, List.length_map, List.countP_eq_length_filter]
  rw [hlength, hlength]
  refine List.Perm.length_eq ?_
  refine (List.perm_ext_iff_of_nodup (nodup_keysWhere p t) (nodup_keysWhere p t')).2 fun k => ?_
  rw [mem_keysWhere, mem_keysWhere]
  exact exists_congr fun v => and_congr_left fun hp => h k v hp

/-- The rows of a table are a given row and the others. -/
theorem entries_perm_erase (h : t.lookup k = some v) :
    t.entries.Perm (⟨k, v⟩ :: (t.erase k).entries) := by
  have hk : k ∈ t.entries.keys := AList.lookup_isSome.1 (by rw [h]; rfl)
  obtain ⟨v', l₁, l₂, -, hl, he⟩ := List.exists_of_kerase hk
  have hv : t.lookup k = some v' := mem_entries.1 (hl ▸ by simp)
  cases h.symm.trans hv
  rw [show (t.erase k).entries = l₁ ++ l₂ from he, hl]
  exact List.perm_middle

/-- Erasing a row takes it off the count. -/
theorem count_erase (h : t.lookup k = some v) :
    count p t = count p (t.erase k) + if p k v then 1 else 0 := by
  unfold count
  rw [(entries_perm_erase h).countP_eq, List.countP_cons]

/-- Inserting a row under a new key adds it to the count. -/
theorem count_insert (h : t.lookup k = none) :
    count p (t.insert k v) = count p t + if p k v then 1 else 0 := by
  unfold count
  rw [AList.entries_insert_of_notMem (AList.lookup_eq_none.1 h), List.countP_cons]

/-! ## Sums over the rows -/

variable {f : V → Int}

/-- A row and the others. -/
theorem total_erase (h : t.lookup k = some v) : total f t = f v + total f (t.erase k) := by
  unfold total
  rw [((entries_perm_erase h).map _).sum_eq, List.map_cons, List.sum_cons]

/-- Inserting a row puts it in the place of the one that was there. -/
theorem total_insert : total f (t.insert k v) = f v + total f (t.erase k) := by
  unfold total
  rw [AList.entries_insert, List.map_cons, List.sum_cons]
  rfl

theorem erase_of_lookup_eq_none (h : t.lookup k = none) : t.erase k = t :=
  AList.ext (List.kerase_of_notMem_keys (AList.lookup_eq_none.1 h))

/-- A new row adds to the sum; a row that was there is left alone. -/
theorem total_insertNew :
    total f (t.insertNew k v) = total f t + if t.lookup k = none then f v else 0 := by
  unfold insertNew
  cases h : t.lookup k with
  | some r => simp
  | none =>
    rw [Option.isSome_none, if_neg Bool.false_ne_true, if_pos rfl, total_insert,
      erase_of_lookup_eq_none h, add_comm]

/-- Changing a row in place. -/
theorem total_modify (h : t.lookup k = some v) :
    total f (t.modify k g) = total f t - f v + f (g v) := by
  rw [modify, h, total_erase h]
  exact total_insert.trans (by ring)

omit [DecidableEq K] in
theorem total_add (f g : V → Int) (t : Table K V) :
    total (fun v => f v + g v) t = total f t + total g t := by
  simp only [total, List.sum_map_add]

/-- Sums of functions that agree on the rows. -/
theorem total_congr (h : ∀ k v, t.lookup k = some v → f v = g v) : total f t = total g t := by
  unfold total
  congr 1
  refine List.map_congr_left fun e he => ?_
  exact h e.1 e.2 (mem_entries.1 he)

theorem total_nonneg (h : ∀ k v, t.lookup k = some v → 0 ≤ f v) : 0 ≤ total f t := by
  refine List.sum_nonneg fun x hx => ?_
  obtain ⟨e, he, rfl⟩ := List.mem_map.1 hx
  exact h e.1 e.2 (mem_entries.1 he)

end Table

end Aegis
