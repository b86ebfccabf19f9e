import Aegis.Db.Stmt

/-!
# The CAS registry

The statements that write `cas_blocks` and `file_manifest_blocks`: the insert that leaves an
existing block alone (`ON CONFLICT (block_hash) DO NOTHING`), the reference-count triggers
`manifest_block_added` and `manifest_block_removed`, the deletion of a version with its cascade,
and the calls of `PgRegistry` and of `gc_delete_unreferenced`. An UPDATE or DELETE reads its
snapshot in one step and rewrites each row it picked in a step of its own, under the row's lock
and on the latest committed row.
-/

namespace Aegis.Db

/-! ## Changes to the tables -/

/-- There is a `cas_blocks` row for `h`. -/
def hasBlock (h : Hash) (d : Db) : Bool := (d.blocks.lookup h).isSome

/-- There is a `file_versions` row `v`. -/
def hasVersion (v : Uuid) (d : Db) : Bool := (d.versions.lookup v).isSome

/-- There is a `file_manifest_blocks` row `(v, i)`. -/
def hasManifest (v : Uuid) (i : Int) (d : Db) : Bool := (d.manifest.lookup (v, i)).isSome

/-- There is a `tenants` row `t`. -/
def hasTenant (t : Uuid) (d : Db) : Bool := (d.tenants.lookup t).isSome

/-- The reference count in the row of a block, if there is one. -/
def refCount? (d : Db) (h : Hash) : Option Int := (d.blocks.lookup h).map BlockRow.refCount

/-- The reference count of a block, 0 if it has no row. -/
def refCount (d : Db) (h : Hash) : Int := (d.refCount? h).getD 0

/-- `block_hash = h AND ref_count = 0` holds of a row. -/
def isOrphan (h : Hash) (d : Db) : Bool := d.refCount? h == some 0

def insertBlock (h : Hash) (r : BlockRow) (d : Db) : Db :=
  { d with blocks := d.blocks.insert h r }

/-- The SET clause of `manifest_block_added`. -/
def addRef (h : Hash) (d : Db) : Db :=
  { d with
    blocks := Table.modify h (fun r =>
      { r with
        refCount := r.refCount + 1
        storageTier := if r.refCount + 1 > 100 then .hot else r.storageTier }) d.blocks }

/-- The SET clause of `manifest_block_removed`. -/
def dropRef (h : Hash) (d : Db) : Db :=
  { d with blocks := Table.modify h (fun r => { r with refCount := r.refCount - 1 }) d.blocks }

def eraseBlock (h : Hash) (d : Db) : Db := { d with blocks := d.blocks.erase h }

/-- The SET clause of `PgRegistry.UpdateTier`, with the thresholds of the package. -/
def retier (h : Hash) (d : Db) : Db :=
  { d with
    blocks := Table.modify h (fun r =>
      { r with
        storageTier :=
          if r.refCount > 100 then .hot else if r.refCount ≥ 10 then .warm else .cold })
      d.blocks }

def insertManifest (v : Uuid) (i : Int) (r : ManifestRow) (d : Db) : Db :=
  { d with manifest := d.manifest.insert (v, i) r }

def eraseManifest (v : Uuid) (i : Int) (d : Db) : Db :=
  { d with manifest := d.manifest.erase (v, i) }

def eraseVersion (v : Uuid) (d : Db) : Db := { d with versions := d.versions.erase v }

/-- The chunk indices of the manifest rows of a version. -/
def manifestOf (d : Db) (v : Uuid) : List Int :=
  (d.manifest.keysWhere fun k _ => k.1 == v).map Prod.snd

/-! ## What the changes do to counts and rows -/

variable (d : Db) (h h' : Hash)

theorem hasBlock_iff : hasBlock h d = true ↔ ∃ c, d.refCount? h = some c := by
  rw [hasBlock, ← Option.isSome_iff_exists, refCount?, Option.isSome_map]

@[simp] theorem refCount?_insertBlock (r : BlockRow) :
    (d.insertBlock h r).refCount? h' = if h' = h then some r.refCount else d.refCount? h' := by
  simp only [refCount?, insertBlock, Table.lookup_insert_eq]
  split <;> rfl

@[simp] theorem refCount?_addRef :
    (d.addRef h).refCount? h' =
      if h' = h then (d.refCount? h').map (· + 1) else d.refCount? h' := by
  simp only [refCount?, addRef, Table.lookup_modify]
  split
  · simp only [Option.map_map]
    rfl
  · rfl

@[simp] theorem refCount?_dropRef :
    (d.dropRef h).refCount? h' =
      if h' = h then (d.refCount? h').map (· - 1) else d.refCount? h' := by
  simp only [refCount?, dropRef, Table.lookup_modify]
  split
  · simp only [Option.map_map]
    rfl
  · rfl

@[simp] theorem refCount?_eraseBlock :
    (d.eraseBlock h).refCount? h' = if h' = h then none else d.refCount? h' := by
  simp only [refCount?, eraseBlock, Table.lookup_erase_eq]
  split <;> rfl

theorem hasBlock_insertBlock (r : BlockRow) :
    hasBlock h' (d.insertBlock h r) = true ↔ h' = h ∨ hasBlock h' d = true := by
  simp only [hasBlock, insertBlock, Table.lookup_insert_eq]
  split
  · next heq => simp [heq]
  · next hne => simp [hne]

theorem hasBlock_addRef : hasBlock h' (d.addRef h) = hasBlock h' d := by
  simp only [hasBlock, addRef, Table.lookup_modify]
  split
  · rw [Option.isSome_map]
  · rfl

@[simp] theorem refCount?_retier : (d.retier h).refCount? h' = d.refCount? h' := by
  simp only [refCount?, retier, Table.lookup_modify]
  split
  · rw [Option.map_map]
    rfl
  · rfl

@[simp] theorem refCount?_insertManifest (v : Uuid) (i : Int) (r : ManifestRow) :
    (d.insertManifest v i r).refCount? h = d.refCount? h := rfl

@[simp] theorem refCount?_eraseManifest (v : Uuid) (i : Int) :
    (d.eraseManifest v i).refCount? h = d.refCount? h := rfl

@[simp] theorem manifestCount_insertBlock (r : BlockRow) :
    (d.insertBlock h r).manifestCount h' = d.manifestCount h' := rfl

@[simp] theorem manifestCount_addRef : (d.addRef h).manifestCount h' = d.manifestCount h' := rfl

@[simp] theorem manifestCount_dropRef : (d.dropRef h).manifestCount h' = d.manifestCount h' := rfl

@[simp] theorem manifestCount_eraseBlock :
    (d.eraseBlock h).manifestCount h' = d.manifestCount h' := rfl

@[simp] theorem manifestCount_retier : (d.retier h).manifestCount h' = d.manifestCount h' := rfl

variable {d}

theorem manifestCount_insertManifest (hnone : d.manifest.lookup (v, i) = none) :
    (d.insertManifest v i r).manifestCount h =
      d.manifestCount h + if r.blockHash = h then 1 else 0 := by
  simpa [manifestCount, insertManifest] using
    Table.count_insert (p := fun _ r => r.blockHash == h) (v := r) hnone

theorem manifestCount_eraseManifest (hsome : d.manifest.lookup (v, i) = some r) :
    d.manifestCount h =
      (d.eraseManifest v i).manifestCount h + if r.blockHash = h then 1 else 0 := by
  simpa [manifestCount, eraseManifest] using
    Table.count_erase (p := fun _ r => r.blockHash == h) hsome

end Aegis.Db

namespace Aegis.Cas

open Db Stmt Txn.Prog

/-! ## Statements and triggers -/

/-- One row of `INSERT INTO cas_blocks … ON CONFLICT (block_hash) DO NOTHING`: the insert waits
for a transaction that is writing the row, and then leaves an existing row alone. Returns whether
the row was inserted. -/
def insertBlockRow (h : Hash) (r : BlockRow) : Stmt Bool := do
  check (fitsInteger r.sizeBytes) .numericValueOutOfRange
  check (0 < r.sizeBytes) (.checkViolation .casBlocksSizeBytesCheck)
  let v ← stmt (fun v => [.row (.block h) (if hasBlock h v then .noKeyUpdate else .update)])
    (fun v => if hasBlock h v then [] else [.row (.block h) .update])
    (fun v d => if hasBlock h v then d else insertBlock h r d)
  return !hasBlock h v

/-- `manifest_block_added`. -/
def manifestBlockAdded (h : Hash) : Stmt Unit := do
  let s ← read
  check (hasBlock h s) (.casRowMissing h)
  let v ← rewriteRow (.block h) .noKeyUpdate (hasBlock h) (hasBlock h) (addRef h)
  check (hasBlock h v) (.casRowMissing h)
  check (fitsBigint (v.refCount h + 1)) .numericValueOutOfRange

/-- `manifest_block_removed`, with the CHECK on the row it writes. -/
def manifestBlockRemoved (h : Hash) : Stmt Unit := do
  let s ← read
  check (hasBlock h s) (.casRowMissingOnDelete h)
  let v ← rewriteRow (.block h) .noKeyUpdate (hasBlock h) (hasBlock h) (dropRef h)
  check (hasBlock h v) (.casRowMissingOnDelete h)
  check (0 ≤ v.refCount h - 1) (.checkViolation .casBlocksRefCountCheck)

/-- One row of the cascading `DELETE FROM file_manifest_blocks WHERE version_id = v`: the hash of
the row, if it was still there. -/
def deleteManifestRow (v : Uuid) (i : Int) : Stmt (Option Hash) := do
  let d ← rewriteRow (.manifest v i) .update (hasManifest v i) (hasManifest v i) (eraseManifest v i)
  return (d.manifest.lookup (v, i)).map ManifestRow.blockHash

/-- The cascade of a deleted version: all its manifest rows go first, then the triggers of the
deleted rows fire in turn. -/
def deleteManifestOf (v : Uuid) : Stmt Unit := do
  let s ← read
  let gone ← collect (s.manifestOf v) (deleteManifestRow v)
  forEach gone manifestBlockRemoved

/-- `DELETE FROM file_versions WHERE version_id = v`. -/
def deleteVersion (v : Uuid) : Stmt Unit := do
  let s ← read
  if hasVersion v s then
    let d ← rewriteRow (.version v) .update (hasVersion v) (hasVersion v) (eraseVersion v)
    if hasVersion v d then deleteManifestOf v

/-- One row of the `DELETE FROM cas_blocks` below: the hash, if the row was deleted. -/
def deleteOrphanRow (h : Hash) : Stmt (Option Hash) := do
  let d ← rewriteRow (.block h) .update (hasBlock h) (isOrphan h) (eraseBlock h)
  return if isOrphan h d then some h else none

/-- The check of `ON DELETE RESTRICT` after a `cas_blocks` row was deleted. -/
def restrictManifest (h : Hash) : Stmt Unit := do
  let s ← read
  check (s.manifestCount h == 0) (.restrictViolation .fileManifestBlocksBlockHashFkey)

/-- `DELETE FROM cas_blocks WHERE block_hash = ANY(hashes) AND ref_count = 0`: the number of rows
deleted. -/
def deleteOrphans (hashes : List Hash) : Stmt Nat := do
  let s ← read
  let gone ← collect (s.blocks.keysWhere fun h r => hashes.contains h && r.refCount == 0)
    deleteOrphanRow
  forEach gone restrictManifest
  return gone.length

/-! ## Calls -/

/-- `PgRegistry.EnsureBlock`: the inserted row starts with `ref_count` 1. Returns whether the block
is new. -/
def ensureBlock (h : Hash) (tenantId : Uuid) (sizeBytes : Int) (now : Time) : Stmt Bool := do
  let isNew ← insertBlockRow h ⟨tenantId, sizeBytes, .hot, 1, false, now⟩
  if isNew then
    references (.tenant tenantId) (hasTenant tenantId) .casBlocksTenantIdFkey
    return true
  else
    return false

/-- `PgRegistry.DeleteBlocks`. -/
def deleteBlocks (hashes : List Hash) : Stmt Nat :=
  if hashes.isEmpty then return 0 else deleteOrphans hashes

/-- `gc_delete_unreferenced`: the number of rows deleted, and the number the NOTICE reports as
skipped, if it is raised. -/
def gcDeleteUnreferenced (batch : List Hash) : Stmt (Nat × Option Int) := do
  let deleted ← deleteOrphans batch
  return (deleted, if deleted = batch.length then none else some (batch.length - deleted))

/-- `PgRegistry.UpdateTier`. -/
def updateTier (h : Hash) : Stmt Unit := do
  let s ← read
  if hasBlock h s then
    let _ ← rewriteRow (.block h) .noKeyUpdate (hasBlock h) (hasBlock h) (retier h)

end Aegis.Cas
