import Aegis.Namespace.Move

/-!
# Deleted directories

`soft_delete_node` marks one row. The guards of INSERT and of `move_directory` look at the mark of
the parent itself, and no call takes a mark away: nothing is ever placed under a deleted node again.
What is below it is not marked, so a directory in a deleted directory is still open.
-/

namespace Aegis.Namespace

open Db Stmt Txn Txn.Prog

variable {d d' : Db} {t n p : Uuid}

/-! ## Marks stay -/

/-- The row is there and is marked as deleted. -/
def IsDeleted (d : Db) (n : Uuid) : Prop := ∃ r, d.nodes.lookup n = some r ∧ r.isDeleted = true

/-- What was deleted is deleted. -/
def KeepsDeleted (d d' : Db) : Prop := ∀ n, IsDeleted d n → IsDeleted d' n

theorem KeepsDeleted.refl (d : Db) : KeepsDeleted d d := fun _ => id

theorem KeepsDeleted.trans (hab : KeepsDeleted a b) (hbc : KeepsDeleted b c) : KeepsDeleted a c :=
  fun n h => hbc n (hab n h)

/-- A row is rewritten without taking its mark away. -/
theorem keepsDeleted_modify (hf : ∀ r, r.isDeleted = true → (f r).isDeleted = true) (d : Db) :
    KeepsDeleted d { d with nodes := Table.modify n f d.nodes } := by
  rintro x ⟨r, hr, hdel⟩
  rw [IsDeleted, Table.lookup_modify, hr]
  split
  · exact ⟨f r, rfl, hf r hdel⟩
  · exact ⟨r, rfl, hdel⟩

theorem keepsDeleted_bumpEpoch (n : Uuid) (d : Db) : KeepsDeleted d (bumpEpoch n d) := by
  refine keepsDeleted_modify ?_ d
  exact fun _ h => h

theorem keepsDeleted_setLineage (n : Uuid) (newParent : Option Uuid) (path : LTree) (d : Db) :
    KeepsDeleted d (setLineage n newParent path d) := by
  refine keepsDeleted_modify ?_ d
  exact fun _ h => h

theorem keepsDeleted_tombstone (n : Uuid) (name : List Char) (d : Db) :
    KeepsDeleted d (tombstone n name d) := by
  refine keepsDeleted_modify ?_ d
  exact fun _ _ => rfl

theorem keepsDeleted_insertNode (d : Db) : KeepsDeleted d (d.insertNode n r) := by
  rintro x ⟨q, hq, hdel⟩
  rw [IsDeleted, lookup_insertNode, hq]
  split
  · exact ⟨q, rfl, hdel⟩
  · exact ⟨q, rfl, hdel⟩

theorem insertNode_keepsDeleted : (insertNode a).Within KeepsDeleted := by
  refine varchar255_within.bind fun name => ?_
  refine (lineageGuardInsert_within KeepsDeleted.refl).bind fun path => ?_
  refine Within.check.bind fun _ => Within.check.bind fun _ => ?_
  refine (Within.stmt fun _ => keepsDeleted_insertNode).bind fun v => ?_
  refine Within.check.bind fun _ => Within.check.bind fun _ => Within.check.bind fun _ => ?_
  exact (references_within KeepsDeleted.refl).bind fun _ =>
    referencesParent_within KeepsDeleted.refl

/-- A call that is not a DELETE. -/
def Call.keepsRows : Call → Bool
  | .delete _ => false
  | _ => true

theorem Call.keepsDeleted {c : Call} (h : c.keepsRows = true) : c.body.Within KeepsDeleted := by
  cases c with
  | createRoot n t name =>
    exact (insertNode_keepsDeleted.bind fun _ => Within.ret).bind fun _ => Within.ret
  | place c =>
    cases c with
    | insert a => exact insertNode_keepsDeleted
    | move t n m =>
      exact moveDirectory_within KeepsDeleted.refl keepsDeleted_setLineage
  | softDelete t n =>
    exact softDeleteNode_within KeepsDeleted.refl keepsDeleted_tombstone keepsDeleted_bumpEpoch
  | delete n => cases h

/-- A whole run takes no mark away. -/
theorem keepsDeleted_serial (h : ∀ c ∈ cs, c.keepsRows = true) (d : Db) :
    KeepsDeleted d (serial d cs) := by
  induction cs generalizing d with
  | nil => exact KeepsDeleted.refl d
  | cons c cs ih =>
    have hafter : KeepsDeleted d (after d c) := by
      rw [after]
      split
      · next d' hok =>
        exact (Call.keepsDeleted (h c List.mem_cons_self)).alone KeepsDeleted.refl
          KeepsDeleted.trans hok
      · exact KeepsDeleted.refl d
    exact hafter.trans (ih (fun c hc => h c (List.mem_cons_of_mem _ hc)) (after d c))

/-! ## What a call that succeeds has found -/

/-- The call succeeds on the database. -/
def succeeds (d : Db) (c : Call) : Bool :=
  match c.body.alone d with
  | .ok _ => true
  | .error _ => false

theorem succeeds_iff : succeeds d c = true ↔ ∃ r, c.body.alone d = .ok r := by
  unfold succeeds
  cases c.body.alone d with
  | ok r => simp
  | error e => simp

/-- The parent that a call gives to a node. -/
def Call.parent : Call → Option Uuid
  | .place (.insert a) => a.parentId
  | .place (.move _ _ newParentId) => newParentId
  | .createRoot _ _ _ => none
  | .softDelete _ _ => none
  | .delete _ => none

theorem insertNode_finds (h : (insertNode a).alone d = .ok r) (hp : a.parentId = some p) :
    ¬ IsDeleted d p := by
  obtain ⟨⟨⟩, d'⟩ := r
  obtain ⟨row, -, hpath⟩ := insertNode_alone h
  rw [hp, lineageGuardInsert, readLineage, bind_eq, alone_stmt_bind] at hpath
  rintro ⟨q, hq, hdel⟩
  simp only [hq, bind_eq] at hpath
  obtain ⟨-, hpath⟩ := alone_check_bind_ok hpath
  obtain ⟨-, hpath⟩ := alone_check_bind_ok hpath
  obtain ⟨hlive, -⟩ := alone_check_bind_ok hpath
  rw [hdel] at hlive
  cases hlive

theorem moveDirectory_finds (h : (moveDirectory t x (some p)).alone d = .ok r) :
    ¬ IsDeleted d p := by
  obtain ⟨⟨⟩, d'⟩ := r
  obtain ⟨n, p', src, dst, -, hp, hm⟩ := movable_of_ok h
  cases hp
  rintro ⟨q, hq, hdel⟩
  cases hq.symm.trans (lookup_of_nodeOf hm.target).1
  rw [hm.targetLive] at hdel
  cases hdel

/-- **Nothing is placed under a deleted node.** -/
theorem not_isDeleted_of_succeeds (h : succeeds d c = true) (hp : c.parent = some p) :
    ¬ IsDeleted d p := by
  obtain ⟨r, hr⟩ := succeeds_iff.1 h
  cases c with
  | createRoot n t name => cases hp
  | place c =>
    cases c with
    | insert a => exact insertNode_finds hr hp
    | move t x m =>
      obtain rfl : m = some p := hp
      exact moveDirectory_finds hr
  | softDelete t n => cases hp
  | delete n => cases hp

/-! ## Runs -/

theorem tombstoneRow_alone (hr : d.nodeOf t n = some r)
    (h : (tombstoneRow t n).alone d = .ok ((), d')) : IsDeleted d' n := by
  obtain ⟨hlookup, -⟩ := Option.filter_eq_some_iff.1 hr
  have hhas : hasNodeOf t n d = true := by
    have hten := (Option.filter_eq_some_iff.1 hr).2
    rw [hasNodeOf, hlookup]
    exact hten
  rw [tombstoneRow, bind_eq, alone_read_bind, if_pos hhas, forUpdate, acquire, bind_eq,
    alone_stmt_bind, hr] at h
  obtain ⟨name, d₁, hname, h⟩ := alone_bind_ok h
  obtain rfl : d = d₁ := varchar255_within.alone Eq.refl Eq.trans hname
  obtain ⟨-, h⟩ := alone_check_bind_ok h
  rw [bind_eq, alone_stmt_bind] at h
  obtain rfl : tombstone n name d = d' := Within.check.alone Eq.refl Eq.trans h
  refine ⟨{ r with isDeleted := true, name := name, aclEpoch := r.aclEpoch + 1 }, ?_, rfl⟩
  rw [tombstone, Table.lookup_modify, if_pos rfl, hlookup, Option.map_some]

/-- `soft_delete_node` marks its node. -/
theorem isDeleted_after_softDelete (h : succeeds d (.softDelete t n) = true) :
    IsDeleted (after d (.softDelete t n)) n := by
  obtain ⟨⟨⟨⟩, d'⟩, hok⟩ := succeeds_iff.1 h
  rw [after, hok]
  change (softDeleteNode t n).alone d = _ at hok
  rw [softDeleteNode, forUpdate, acquire, bind_eq, alone_stmt_bind] at hok
  split at hok
  · cases hok
  · next r hr =>
    obtain ⟨_, d₁, htomb, hok⟩ := alone_bind_ok hok
    refine Within.alone KeepsDeleted.refl KeepsDeleted.trans ?_ hok n (tombstoneRow_alone hr htomb)
    refine (Within.read KeepsDeleted.refl).bind fun _ => Within.forEach (fun x => ?_) _
    exact (rewriteRow_within KeepsDeleted.refl (keepsDeleted_bumpEpoch x)).bind fun _ =>
      Within.check

/-- **Closed for good**: from an empty namespace, once `soft_delete_node(n)` has succeeded, no later
INSERT and no later `move_directory` succeeds in giving a node the parent `n`. -/
theorem deleted_node_closed (d : Db) (before later : List Call) (t n : Uuid) (c : Call)
    (hdelete : succeeds (serial { d with nodes := ∅ } before) (.softDelete t n) = true)
    (hlater : ∀ c ∈ later, c.keepsRows = true)
    (hc : succeeds (serial { d with nodes := ∅ } (before ++ .softDelete t n :: later)) c = true) :
    c.parent ≠ some n := by
  intro hp
  refine not_isDeleted_of_succeeds hc hp ?_
  rw [serial, List.foldl_append]
  exact keepsDeleted_serial hlater _ n (isDeleted_after_softDelete hdelete)

/-! ## A directory in a deleted directory -/

/-- The calls that make a root (2), a directory `a` (3) in it and a directory `c` (5) in `a`. -/
def nestedDirectories : List Call := [
  .createRoot 2 1 ['r'],
  .place (.insert ⟨3, 1, some 2, ['a'], .directory⟩),
  .place (.insert ⟨5, 1, some 3, ['c'], .directory⟩)]

def tenantOnly : Db := Db.seed (AList.singleton 1 ⟨100, 0⟩) ∅ ∅

/-- `a` is deleted, and a new file goes to the root. -/
theorem deleted_node_closed_root :
    succeeds (serial tenantOnly (nestedDirectories ++ [.softDelete 1 3]))
      (.place (.insert ⟨6, 1, some 2, ['x'], .file⟩)) = true ∧
    (Call.place (.insert ⟨6, 1, some 2, ['x'], .file⟩)).parent ≠ some 3 := by
  have hok : succeeds (serial tenantOnly (nestedDirectories ++ [.softDelete 1 3]))
      (.place (.insert ⟨6, 1, some 2, ['x'], .file⟩)) = true := by
    decide +kernel
  exact ⟨hok, deleted_node_closed tenantOnly nestedDirectories [] 1 3 _
    (by decide +kernel) nofun hok⟩

/-- `a` is deleted, and a new file goes into `c`, which is in `a`. -/
theorem insert_below_deleted :
    succeeds (serial tenantOnly nestedDirectories) (.softDelete 1 3) = true ∧
    Relation.TransGen (Parent (serial tenantOnly (nestedDirectories ++ [.softDelete 1 3]))) 5 3 ∧
    succeeds (serial tenantOnly (nestedDirectories ++ [.softDelete 1 3]))
      (.place (.insert ⟨6, 1, some 5, ['x'], .file⟩)) = true := by
  have hparent : ((serial tenantOnly (nestedDirectories ++ [.softDelete 1 3])).nodes.lookup 5).map
      NodeRow.parentId = some (some 3) := by
    decide +kernel
  exact ⟨by decide +kernel, .single (Option.map_eq_some_iff.1 hparent), by decide +kernel⟩

end Aegis.Namespace
