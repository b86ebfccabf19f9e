import Aegis.Db.Schema
import Aegis.Lib.Hoare
import Aegis.Lib.Wait

/-!
# Statements

The shapes that the SQL statements of the modelled transactions have: locking a row to read it,
rewriting a row that a snapshot picked, checking a foreign key. Each comes with its rule for
assertions, over any footprint.
-/

namespace Aegis

/-- A piece of a transaction on the database. -/
abbrev Stmt (β : Type) : Type := Txn.Prog Db DbLock Err β

namespace Stmt

open Txn Txn.Prog

/-- The lock a statement asks for on a row that is there. -/
def lockIf (present : Db → Bool) (k : RowKey) (m : LockMode) (v : Db) : List DbLock :=
  if present v then [.row k m] else []

/-- `SELECT … FOR UPDATE` by primary key: wait for the row if there is one, and read the view under
the lock. -/
def forUpdate (k : RowKey) (present : Db → Bool) : Stmt Db := acquire (lockIf present k .update)

/-- What an UPDATE or DELETE does to one row its snapshot picked: lock it, and write it if the
latest committed row still satisfies the condition. Returns the view the row was rechecked on. -/
def rewriteRow (k : RowKey) (m : LockMode) (present matching : Db → Bool) (write : Db → Db) :
    Stmt Db :=
  stmt (lockIf present k m) (lockIf present k m) fun v d => if matching v then write d else d

/-- A foreign-key check: share-lock the referenced row, or raise the violation. -/
def references (k : RowKey) (present : Db → Bool) (c : Constraint) : Stmt Unit := do
  let v ← acquire (lockIf present k .keyShare)
  check (present v) (.foreignKeyViolation c)

theorem references_alone (k : RowKey) (present : Db → Bool) (c : Constraint) (d : Db) :
    (references k present c).alone d =
      if present d then .ok ((), d) else .error (.foreignKeyViolation c) := by
  rw [references, bind_eq, acquire, alone_stmt_bind, alone_check]

/-! ## Rules -/

variable {Call Res : Type} {F : Footprint Db DbLock} {Inv : World Db Call Res → Prop}
  {Excluded : Err → Prop} {A : List DbLock → World Db Call Res → Db → Prop}
  {k : RowKey} {m : LockMode} {present matching : Db → Bool}

theorem mem_lockIf : l ∈ lockIf present k m v ↔ present v = true ∧ l = .row k m := by
  unfold lockIf
  split
  · next h => simp [h]
  · next h => simp [h]

/-- A row that is there stays as it was read. -/
theorem forUpdate_triple
    (hB : ∀ held held' w v w' u, Inv w → A held w v → Inv w' → A held w' u → held ⊆ held' →
      (present v = true → .row k .update ∈ held') → (∀ l ∈ held', F.Agree l w.db w'.db) →
      (∀ l ∈ held', F.Agree l v u) → B v held' w' u) :
    F.Triple Inv Excluded A (forUpdate k present) B := by
  refine Footprint.Triple.acquire fun held w v w' u hw hv hw' hu hbase hview => ?_
  refine hB held _ w v w' u hw hv hw' hu (List.subset_append_right _ _) ?_ hbase hview
  intro hp
  exact List.mem_append_left _ (mem_lockIf.2 ⟨hp, rfl⟩)

variable {write : Db → Db} {c : Constraint}

/-- Rewriting a row: the write is covered by the row's lock, and happens on a row that agrees with
the one that was rechecked. -/
theorem rewriteRow_triple (hcov : F.Covered [.row k m] write)
    (hpres : ∀ v, matching v = true → present v = true)
    (hB : ∀ held held' w v w' u, Inv w → A held w v → Inv w' → A held w' u → held ⊆ held' →
      (present v = true → .row k m ∈ held') → (∀ l ∈ held', F.Agree l w.db w'.db) →
      (∀ l ∈ held', F.Agree l v u) → B v held' w' (if matching v then write u else u)) :
    F.Triple Inv Excluded A (rewriteRow k m present matching write) B := by
  have hmem : ∀ {held v}, present v = true → .row k m ∈ lockIf present k m v ++ held := fun hp =>
    List.mem_append_left _ (mem_lockIf.2 ⟨hp, rfl⟩)
  refine Footprint.Triple.stmt (fun _ _ hl => .inr hl) ?_ ?_
  · intro held w v _ _
    by_cases hm : matching v = true
    · simp only [hm, if_true]
      exact hcov.mono (List.cons_subset.2 ⟨hmem (hpres v hm), List.nil_subset _⟩)
    · simp only [hm]
      exact Footprint.Covered.id _
  · intro held w v w' u hw hv hw' hu hbase hview
    exact hB held _ w v w' u hw hv hw' hu (List.subset_append_right _ _) hmem hbase hview

/-- A foreign-key check that passes found the row, and changes nothing but what is held. -/
theorem references_triple (hc : ¬ Excluded (.foreignKeyViolation c))
    (hB : ∀ held held' w v w' u, Inv w → A held w v → Inv w' → A held w' u → held ⊆ held' →
      present v = true → B () held' w' u) : F.Triple Inv Excluded A (references k present c) B := by
  refine Footprint.Triple.bind
    (M := fun v held' w' u => present v = true → B () held' w' u) ?_ fun v => ?_
  · refine Footprint.Triple.acquire fun held w v w' u hw hv hw' hu _ _ => ?_
    exact hB held _ w v w' u hw hv hw' hu (List.subset_append_right _ _)
  · exact Footprint.Triple.check (fun _ _ _ _ _ _ => hc) fun _ _ _ _ hu hp => hu hp

section Watch

variable {P : Protocol Db DbLock Err Call Res} {ok : Conduct Db DbLock Call Res}
  {held : List DbLock} {eff : Db → Db} {w : World Db Call Res}

/-- Locking a row waits for it, if it is there. -/
theorem watch_forUpdate
    (h : ∀ w', P.Env held w w' →
      (present (eff w'.db) = true → ok.waits held w' (.row k .update)) ∧
      Q (eff w'.db) (lockIf present k .update (eff w'.db) ++ held) eff w') :
    P.watch ok (forUpdate k present) Q held eff w := by
  refine Protocol.watch_acquire fun w' hw' => ⟨fun l hl => ?_, (h w' hw').2⟩
  obtain ⟨hp, rfl⟩ := mem_lockIf.1 hl
  exact (h w' hw').1 hp

/-- A foreign-key check waits for the row, if it is there. -/
theorem watch_references (h : ∀ w', P.Env held w w' →
      (present (eff w'.db) = true → ok.waits held w' (.row k .keyShare)) ∧
      (present (eff w'.db) = true → Q () (.row k .keyShare :: held) eff w')) :
    P.watch ok (references k present c) Q held eff w := by
  refine Protocol.watch_bind (Protocol.watch_acquire fun w' hw' => ⟨fun l hl => ?_, ?_⟩)
  · obtain ⟨hp, rfl⟩ := mem_lockIf.1 hl
    exact (h w' hw').1 hp
  · refine Protocol.watch_check fun hp => ?_
    have hlocks : lockIf present k .keyShare (eff w'.db) = [.row k .keyShare] := if_pos hp
    rw [hlocks]
    exact (h w' hw').2 hp

end Watch

section Within

variable {R : Db → Db → Prop} (hrefl : ∀ d, R d d)
include hrefl

theorem forUpdate_within : (forUpdate k present).Within R :=
  Prog.Within.acquire hrefl

theorem references_within : (references k present c).Within R :=
  (Prog.Within.acquire hrefl).bind fun _ => Prog.Within.check

theorem rewriteRow_within (h : ∀ d, R d (write d)) :
    (rewriteRow k mode present matching write).Within R := by
  refine Prog.Within.stmt fun v d => ?_
  split
  · exact h d
  · exact hrefl d

end Within

section Uses

variable {W : (Db → Db) → Prop} (hid : W id)
include hid

theorem forUpdate_uses : (forUpdate k present).Uses W :=
  Prog.Uses.acquire hid

theorem references_uses : (references k present c).Uses W :=
  (Prog.Uses.acquire hid).bind fun _ => Prog.Uses.check

theorem rewriteRow_uses (h : W write) : (rewriteRow k mode present matching write).Uses W := by
  refine Prog.Uses.stmt (fun _ => List.Subset.refl _) fun v => ?_
  cases matching v with
  | false => exact hid
  | true => exact h

end Uses

end Stmt

end Aegis
