import Aegis.Lib.Table

/-!
# Re-entrant locks

Exclusive locks that belong to an owner, and that the owner may take again: each lock counts how
often its owner has it, and is free when it has been given back as often. Asking for a lock never
waits. An owner that goes takes all its locks with it.
-/

namespace Aegis

/-- Who has a lock, and how often. -/
structure Hold (Owner : Type) where
  owner : Owner
  depth : Nat
  depth_pos : 0 < depth
  deriving DecidableEq

/-- The locks that are held. A lock cannot have two owners. -/
abbrev Locks (Key Owner : Type) : Type := Table Key (Hold Owner)

namespace Locks

variable {Key Owner : Type} [DecidableEq Key] [DecidableEq Owner]

/-- Take a lock, unless another owner has it. -/
def tryLock (l : Locks Key Owner) (o : Owner) (k : Key) : Bool × Locks Key Owner :=
  match l.lookup k with
  | none => (true, l.insert k ⟨o, 1, Nat.one_pos⟩)
  | some h =>
    if h.owner = o then (true, l.insert k ⟨o, h.depth + 1, h.depth.succ_pos⟩) else (false, l)

/-- Give a lock back once, if the owner has it. -/
def unlock (l : Locks Key Owner) (o : Owner) (k : Key) : Bool × Locks Key Owner :=
  match l.lookup k with
  | none => (false, l)
  | some h =>
    if h.owner = o then
      if hd : 1 < h.depth then (true, l.insert k ⟨o, h.depth - 1, Nat.sub_pos_of_lt hd⟩)
      else (true, l.erase k)
    else (false, l)

/-- Give all locks of an owner back. -/
def unlockAll (l : Locks Key Owner) (o : Owner) : Locks Key Owner :=
  (Table.keysWhere (fun _ h => decide (h.owner = o)) l).foldl (fun l k => l.erase k) l

/-- The owner has the lock. -/
def Holds (l : Locks Key Owner) (o : Owner) (k : Key) : Prop :=
  (l.lookup k).map Hold.owner = some o

instance (l : Locks Key Owner) (o : Owner) (k : Key) : Decidable (l.Holds o k) :=
  inferInstanceAs (Decidable (_ = _))

variable {l : Locks Key Owner} {o : Owner} {k : Key}

/-- A lock of another owner is refused. -/
theorem tryLock_held (hk : l.lookup k = some h) (ho : ¬ l.Holds o k) :
    l.tryLock o k = (false, l) := by
  have hne : h.owner ≠ o := by
    rintro rfl
    exact ho (by rw [Holds, hk, Option.map_some])
  rw [tryLock, hk]
  exact if_neg hne

theorem unlock_not_held (ho : ¬ l.Holds o k) : l.unlock o k = (false, l) := by
  unfold unlock
  split
  · rfl
  · next h hk =>
    have hne : h.owner ≠ o := by
      rintro rfl
      exact ho (by rw [Holds, hk, Option.map_some])
    exact if_neg hne

/-- The last giving back frees the lock. -/
theorem unlock_once (hk : l.lookup k = some h) (ho : l.Holds o k) (hd : h.depth = 1) :
    l.unlock o k = (true, l.erase k) := by
  rw [Holds, hk, Option.map_some, Option.some_inj] at ho
  rw [unlock, hk]
  dsimp only
  rw [if_pos ho, dif_neg (by omega)]

theorem lookup_unlockAll : AList.lookup k (l.unlockAll o) =
    if l.Holds o k then none else l.lookup k := by
  have hmem : k ∈ Table.keysWhere (fun _ h => decide (h.owner = o)) l ↔ l.Holds o k := by
    rw [Table.mem_keysWhere, Holds, Option.map_eq_some_iff]
    simp only [decide_eq_true_eq]
  rw [unlockAll, Table.lookup_foldl_erase]
  exact if_congr hmem rfl rfl

end Locks

end Aegis
