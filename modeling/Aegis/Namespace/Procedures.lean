import Aegis.Ingress.Store

/-!
# The namespace procedures

`create_root`, `move_directory` and `soft_delete_node` (db/stored-procedures.sql), the INSERT and
DELETE of a row of `namespace_nodes` (db/schema.sql), and the trigger function
`nodes_lineage_guard`, statement by statement. A statement that reads the path of a node in order
to place a node by it leaves the mark `readPath`; the UPDATE of `move_directory` leaves the mark
`rewritePath` on every row its snapshot picks. The marks are not in the source and change nothing:
nobody waits for them.
-/

namespace Aegis

/-- `a <@ b`: `a` is `b` or a descendant of it. -/
def LTree.descendantOf (a b : LTree) : Bool := b.isPrefixOf a

theorem LTree.descendantOf_iff (a b : LTree) : a.descendantOf b = true ↔ b <+: a :=
  List.isPrefixOf_iff_prefix

namespace Db

/-- The row of node `n` if it belongs to tenant `t`. -/
def nodeOf (d : Db) (t n : Uuid) : Option NodeRow :=
  (d.nodes.lookup n).filter fun r => r.tenantId == t

/-- A new row: an INSERT never replaces one. -/
def insertNode (n : Uuid) (r : NodeRow) (d : Db) : Db :=
  { d with nodes := d.nodes.insertNew n r }

def eraseNode (n : Uuid) (d : Db) : Db := { d with nodes := d.nodes.erase n }

/-- The SET clause of `move_directory` for one row, with the path the trigger settles on:
`parent_id` is set on the moved node only. -/
def setLineage (n : Uuid) (newParent : Option Uuid) (path : LTree) (d : Db) : Db :=
  { d with
    nodes := Table.modify n (fun r =>
      { r with
        parentId := newParent.or r.parentId
        lineagePath := path
        aclEpoch := r.aclEpoch + 1 }) d.nodes }

/-- The SET clause of the first UPDATE of `soft_delete_node`. -/
def tombstone (n : Uuid) (name : List Char) (d : Db) : Db :=
  { d with
    nodes := Table.modify n (fun r =>
      { r with isDeleted := true, name := name, aclEpoch := r.aclEpoch + 1 }) d.nodes }

/-- The SET clause of the second UPDATE of `soft_delete_node`. -/
def bumpEpoch (n : Uuid) (d : Db) : Db :=
  { d with nodes := Table.modify n (fun r => { r with aclEpoch := r.aclEpoch + 1 }) d.nodes }

/-- `ON DELETE SET NULL` of `upload_sessions.node_id`. -/
def clearSessionNode (s : Uuid) (d : Db) : Db :=
  { d with sessions := Table.modify s (fun r => { r with nodeId := none }) d.sessions }

/-- Two rows with the same key in `uq_parent_name` or in `uq_tenant_root`; NULLs are distinct in
the first, and the second holds roots only. -/
def sameSlot (r r' : NodeRow) : Bool :=
  match r.parentId, r'.parentId with
  | some p, some p' =>
    r.tenantId == r'.tenantId && p == p' && r.name == r'.name && r.isDeleted == r'.isDeleted
  | none, none => r.tenantId == r'.tenantId
  | _, _ => false

/-- Another row than `n` has a key of row `r`. -/
def slotTaken (n : Uuid) (r : NodeRow) (d : Db) : Bool :=
  d.nodes.entries.any fun e => e.1 != n && sameSlot r e.2

/-- The rows the UPDATE of `move_directory` picks. -/
def subtree (t n : Uuid) (path : LTree) (d : Db) : List Uuid :=
  d.nodes.keysWhere fun n' r => r.tenantId == t && (n' == n || r.lineagePath.descendantOf path)

/-- The rows the second UPDATE of `soft_delete_node` picks. -/
def descendants (t n : Uuid) (path : LTree) (d : Db) : List Uuid :=
  d.nodes.keysWhere fun n' r => r.tenantId == t && r.lineagePath.descendantOf path && n' != n

/-- Some row has `parent_id = n`. -/
def hasChildren (n : Uuid) (d : Db) : Bool := d.nodes.entries.any fun e => e.2.parentId == some n

end Db

namespace Namespace

open Db Stmt Txn.Prog

/-! ## Values -/

/-- Assignment to `VARCHAR(255)`: what is too long must be blanks, and is cut off. -/
def varchar255 (s : List Char) : Stmt (List Char) := do
  check ((s.drop 255).all (· == ' ')) .stringDataRightTruncation
  return s.take 255

/-- `a || b` on `ltree`, which holds at most 65535 labels. -/
def ltreeConcat (a b : LTree) : Stmt LTree := do
  check (a.length + b.length ≤ 65535) .ltreeTooManyLevels
  return a ++ b

/-- `subpath(path, offset)`: the offset must be below the number of levels. -/
def subpath (path : LTree) (offset : Nat) : Stmt LTree := do
  check (offset < path.length) .ltreeInvalidPositions
  return path.drop offset

/-- The bytes of a path's entry in the GiST index on `lineage_path`: headers of 24 bytes, and for
each label its characters and a length of two bytes, in multiples of eight. -/
def gistTupleSize (path : LTree) : Nat := 24 + (path.map fun l => (l.length + 9) / 8 * 8).sum

/-- The entry of a row in the index must fit on a page. -/
def indexLineage (path : LTree) : Stmt Unit :=
  check (gistTupleSize path ≤ 8148) .programLimitExceeded

/-! ## The trigger -/

/-- A read that a path is taken from. -/
def readLineage (n : Uuid) : Stmt Db :=
  stmt (fun _ => []) (fun _ => [.readPath n]) (fun _ d => d)

/-- `nodes_lineage_guard` on INSERT: the path of the new row. -/
def lineageGuardInsert (nodeId tenantId : Uuid) : Option Uuid → Stmt LTree
  | none => return [nodeId.nodeLabel]
  | some parentId => do
    let v ← readLineage parentId
    match v.nodes.lookup parentId with
    | none => raise (.parentMissing parentId)
    | some parent =>
      check (parent.tenantId == tenantId) (.crossTenantParent parent.tenantId tenantId)
      check (parent.type == .directory) .parentNotDirectory
      check (!parent.isDeleted) .parentDeleted
      ltreeConcat parent.lineagePath [nodeId.nodeLabel]

/-- `nodes_lineage_guard` on an UPDATE of `parent_id` or `lineage_path`, with the setting
`aegis.allow_move`: the path of the updated row. -/
def lineageGuardUpdate (allowMove : Bool) (nodeId : Uuid) (old new : NodeRow) : Stmt LTree :=
  if new.parentId = old.parentId then do
    check (new.lineagePath == old.lineagePath || allowMove) .lineageTamper
    return new.lineagePath
  else do
    check allowMove .directReparentForbidden
    match new.parentId with
    | none => raise .rootMoveForbidden
    | some parentId =>
      let v ← readLineage parentId
      match v.nodes.lookup parentId with
      | none => raise .invalidTargetParent
      | some parent =>
        check (parent.tenantId == new.tenantId && parent.type == .directory && !parent.isDeleted)
          .invalidTargetParent
        ltreeConcat parent.lineagePath [nodeId.nodeLabel]

/-! ## INSERT -/

/-- A row to be inserted; the other columns have defaults. -/
structure NewNode where
  nodeId : Uuid
  tenantId : Uuid
  parentId : Option Uuid
  name : List Char
  type : NodeType

/-- The entries of the unique indexes that a row occupies besides its primary key. -/
def slotLocks (r : NodeRow) : List DbLock :=
  match r.parentId with
  | some p => [.row (.uqParentName r.tenantId p r.name r.isDeleted) .update]
  | none => [.row (.uqTenantRoot r.tenantId) .update]

/-- The constraint of the index in which a row can clash. -/
def slotConstraint (r : NodeRow) : Constraint :=
  if r.parentId.isSome then .uqParentName else .uqTenantRoot

/-- The foreign key of `parent_id`. -/
def referencesParent : Option Uuid → Stmt Unit
  | none => return
  | some p => references (.node p) (hasNode p) .namespaceNodesParentIdFkey

/-- The row of an INSERT once the trigger has computed its path: CHECKs, unique indexes, foreign
keys. -/
def insertNodeRow (n : Uuid) (r : NodeRow) : Stmt Unit := do
  check (r.type == .directory || r.parentId.isSome) (.checkViolation .nodesFileHasParent)
  check (r.name.any (· != ' ')) (.checkViolation .nodesNameNotBlank)
  let v ← stmt (fun _ => .row (.node n) .update :: slotLocks r)
    (fun _ => .row (.node n) .update :: slotLocks r) (fun _ => Db.insertNode n r)
  check (!hasNode n v) (.uniqueViolation .namespaceNodesPkey)
  check (!slotTaken n r v) (.uniqueViolation (slotConstraint r))
  indexLineage r.lineagePath
  references (.tenant r.tenantId) (hasTenant r.tenantId) .namespaceNodesTenantIdFkey
  referencesParent r.parentId

/-- `INSERT INTO namespace_nodes (node_id, tenant_id, parent_id, name, type)`. -/
def insertNode (a : NewNode) : Stmt Unit := do
  let name ← varchar255 a.name
  let path ← lineageGuardInsert a.nodeId a.tenantId a.parentId
  insertNodeRow a.nodeId ⟨a.tenantId, a.parentId, name, a.type, path, 1, false⟩

/-- `create_root`, with the id the database generates. -/
def createRoot (nodeId tenantId : Uuid) (name : List Char) : Stmt Uuid := do
  insertNode ⟨nodeId, tenantId, none, name, .directory⟩
  return nodeId

/-! ## `move_directory` -/

/-- Step 1 of `move_directory`: lock those of the two rows that the statement's snapshot shows, in
ascending order. -/
def lockEndpoints (tenantId nodeId newParentId : Uuid) : Stmt Unit := do
  let s ← read
  let (low, high) := if nodeId < newParentId then (nodeId, newParentId) else (newParentId, nodeId)
  forEach ([low, high].filter fun n => hasNodeOf tenantId n s) fun n => do
    let _ ← forUpdate (.node n) (hasNodeOf tenantId n)

/-- The new path of a row of the subtree. -/
def remappedPath (nodeId : Uuid) (srcPath dstPath : LTree) (n : Uuid) (r : NodeRow) :
    Stmt LTree :=
  if n = nodeId then ltreeConcat dstPath [nodeId.nodeLabel]
  else do
    let top ← ltreeConcat dstPath [nodeId.nodeLabel]
    let below ← subpath r.lineagePath srcPath.length
    ltreeConcat top below

/-- The write of one row of the UPDATE, with the check of `uq_parent_name` for the row whose
`parent_id` is set, and the new entry in the index of paths. -/
def writeLineage (nodeId newParentId n : Uuid) (new : NodeRow) : Stmt Unit :=
  if n = nodeId then do
    let v ← stmt (fun _ => slotLocks new) (fun _ => slotLocks new)
      (fun _ => setLineage n (some newParentId) new.lineagePath)
    check (!slotTaken n new v) (.uniqueViolation (slotConstraint new))
    indexLineage new.lineagePath
  else do
    let _ ← stmt (fun _ => []) (fun _ => []) (fun _ => setLineage n none new.lineagePath)
    indexLineage new.lineagePath

/-- One row of the UPDATE: lock it, re-evaluate the WHERE clause on the latest row, and rewrite it
through the trigger. The statement sets the key column `parent_id`, so every row is locked as for a
key update. Returns whether the parent changed, if the row was updated. -/
def remapRow (tenantId nodeId newParentId : Uuid) (srcPath dstPath : LTree) (n : Uuid) :
    Stmt (Option Bool) := do
  let v ← forUpdate (.node n) (hasNode n)
  match v.nodes.lookup n with
  | none => return none
  | some r =>
    if r.tenantId == tenantId && (n == nodeId || r.lineagePath.descendantOf srcPath) then
      let path ← remappedPath nodeId srcPath dstPath n r
      let parentId := if n = nodeId then some newParentId else r.parentId
      let path ← lineageGuardUpdate true n r { r with parentId := parentId, lineagePath := path }
      check (fitsBigint (r.aclEpoch + 1)) .numericValueOutOfRange
      writeLineage nodeId newParentId n { r with parentId := parentId, lineagePath := path }
      return some (parentId != r.parentId)
    else return none

section
variable (scan : List Uuid → List Uuid)

/-- Step 3 of `move_directory`: the UPDATE over the subtree, in the order in which its rows are
scanned, the foreign key of the new parent, and the count of updated rows. -/
def remapSubtree (tenantId nodeId newParentId : Uuid) (srcPath dstPath : LTree) : Stmt Unit := do
  let s ← stmt (fun _ => []) (fun v => (v.subtree tenantId nodeId srcPath).map .rewritePath)
    (fun _ d => d)
  let moved ← collect (scan (s.subtree tenantId nodeId srcPath))
    (remapRow tenantId nodeId newParentId srcPath dstPath)
  forEach (moved.filter id) fun _ => referencesParent (some newParentId)
  check (!moved.isEmpty) .moveRemappedZeroRows

/-- Steps 2 and 3 of `move_directory`, once the source row has been read and found movable. -/
def moveUnder (tenantId nodeId newParentId : Uuid) (src : NodeRow) : Stmt Unit := do
  let v ← readLineage newParentId
  match v.nodeOf tenantId newParentId with
  -- the variables stay NULL, no check fails, and the trigger finds no parent
  | none => raise .invalidTargetParent
  | some dst =>
    check (dst.type == .directory) .targetNotDirectory
    check (!dst.isDeleted) .targetDeleted
    check (!dst.lineagePath.descendantOf src.lineagePath) .cycle
    let s ← read
    check (!(s.nodes.entries.any fun e => e.2.tenantId == tenantId &&
      e.2.parentId == some newParentId && e.2.name == src.name && !e.2.isDeleted &&
      e.1 != nodeId)) (.nameConflict src.name)
    remapSubtree scan tenantId nodeId newParentId src.lineagePath dst.lineagePath

/-- `move_directory` for two different nodes. -/
def moveNode (tenantId nodeId newParentId : Uuid) : Stmt Unit := do
  lockEndpoints tenantId nodeId newParentId
  let c ← read
  check (hasNodeOf tenantId nodeId c && hasNodeOf tenantId newParentId c) .moveNodeNotFound
  let v ← readLineage nodeId
  match v.nodeOf tenantId nodeId with
  -- the variables stay NULL, no check on them fails, and the UPDATE finds no row
  | none => raise .moveRemappedZeroRows
  | some src =>
    check src.parentId.isSome .rootMoveForbidden
    check (!src.isDeleted) .sourceDeleted
    moveUnder scan tenantId nodeId newParentId src

/-- `move_directory` with an order of its scan; node and parent may be NULL. -/
def moveScanning (tenantId : Uuid) : Option Uuid → Option Uuid → Stmt Unit
  | some nodeId, some newParentId =>
    if nodeId = newParentId then raise .moveInvalidArguments
    else moveNode scan tenantId nodeId newParentId
  | _, _ => raise .moveInvalidArguments

end

/-- `move_directory`, which scans the rows in the order of the table. -/
def moveDirectory (tenantId : Uuid) (nodeId newParentId : Option Uuid) : Stmt Unit :=
  moveScanning id tenantId nodeId newParentId

/-! ## `soft_delete_node` and DELETE -/

/-- The first UPDATE of `soft_delete_node`. -/
def tombstoneRow (tenantId nodeId : Uuid) : Stmt Unit := do
  let s ← read
  if hasNodeOf tenantId nodeId s then
    let v ← forUpdate (.node nodeId) (hasNode nodeId)
    match v.nodeOf tenantId nodeId with
    | none => return
    | some r =>
      let name ← varchar255 (r.name ++ "~del:".toList ++ nodeId.text.take 8)
      check (fitsBigint (r.aclEpoch + 1)) .numericValueOutOfRange
      let new := { r with isDeleted := true, name := name }
      let v ← stmt (fun _ => slotLocks new) (fun _ => slotLocks new)
        (fun _ => tombstone nodeId name)
      check (!slotTaken nodeId new v) (.uniqueViolation (slotConstraint new))

/-- One row of the second UPDATE of `soft_delete_node`. -/
def bumpRow (tenantId nodeId : Uuid) (path : LTree) (n : Uuid) : Stmt Unit := do
  let stillPicked (d : Db) : Bool :=
    ((d.nodeOf tenantId n).map fun r => r.lineagePath.descendantOf path && n != nodeId).getD false
  let v ← rewriteRow (.node n) .noKeyUpdate (hasNode n) stillPicked (bumpEpoch n)
  check (!stillPicked v || ((v.nodes.lookup n).map fun r => fitsBigint (r.aclEpoch + 1)).getD true)
    .numericValueOutOfRange

/-- `soft_delete_node`. -/
def softDeleteNode (tenantId nodeId : Uuid) : Stmt Unit := do
  let v ← forUpdate (.node nodeId) (hasNodeOf tenantId nodeId)
  match v.nodeOf tenantId nodeId with
  | none => raise .nodeNotFound
  | some r =>
    tombstoneRow tenantId nodeId
    let s ← read
    forEach (s.descendants tenantId nodeId r.lineagePath) (bumpRow tenantId nodeId r.lineagePath)

/-- The referential actions of a deleted node: RESTRICT for its children, CASCADE to its versions,
SET NULL in its upload sessions. -/
def afterDeleteNode (n : Uuid) : Stmt Unit := do
  let s ← read
  check (!hasChildren n s) (.restrictViolation .namespaceNodesParentIdFkey)
  let s ← read
  forEach (s.versions.keysWhere fun _ r => r.nodeId == n) Cas.deleteVersion
  let s ← read
  forEach (s.sessions.keysWhere fun _ r => r.nodeId == some n) fun sid => do
    let _ ← rewriteRow (.session sid) .noKeyUpdate (hasSession sid)
      (fun d => ((d.sessions.lookup sid).bind SessionRow.nodeId) == some n) (clearSessionNode sid)

/-- `DELETE FROM namespace_nodes WHERE node_id = n`. -/
def deleteNode (n : Uuid) : Stmt Unit := do
  let s ← read
  if hasNode n s then
    let d ← rewriteRow (.node n) .update (hasNode n) (hasNode n) (eraseNode n)
    if hasNode n d then afterDeleteNode n

/-! ## Calls -/

/-- The calls that place nodes: an INSERT, and `move_directory`. -/
inductive PlaceCall
  | insert (a : NewNode)
  | move (tenantId : Uuid) (nodeId newParentId : Option Uuid)

def PlaceCall.body : PlaceCall → Stmt Unit
  | insert a => insertNode a
  | move tenantId nodeId newParentId => moveDirectory tenantId nodeId newParentId

/-- All calls that write `namespace_nodes`. -/
inductive Call
  | createRoot (nodeId tenantId : Uuid) (name : List Char)
  | place (c : PlaceCall)
  | softDelete (tenantId nodeId : Uuid)
  | delete (nodeId : Uuid)

def Call.body : Call → Stmt Unit
  | createRoot nodeId tenantId name => do
    let _ ← Namespace.createRoot nodeId tenantId name
  | place c => c.body
  | softDelete tenantId nodeId => softDeleteNode tenantId nodeId
  | delete nodeId => deleteNode nodeId

/-- The database after a call served alone; a call that raises leaves it as it was. -/
def after (d : Db) (c : Call) : Db :=
  match c.body.alone d with
  | .ok (_, d') => d'
  | .error _ => d

/-- The database after a sequence of calls, one transaction each. -/
def serial (d : Db) (cs : List Call) : Db := cs.foldl after d

end Namespace

end Aegis
