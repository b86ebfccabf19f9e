import Aegis.Cas.Registry

/-!
# The commit path

`PgStore.CommitFile` (internal/ingress/store.go), `next_version_number`
(db/stored-procedures.sql) and `DatabaseClient.CommitFileVersion` (internal/database/client.go),
statement by statement, with the constraint checks and triggers each statement brings. Generated
identifiers and clock readings are arguments.
-/

namespace Aegis.Db

/-- There is a `namespace_nodes` row `n`. -/
def hasNode (n : Uuid) (d : Db) : Bool := (d.nodes.lookup n).isSome

/-- There is a `namespace_nodes` row `n` of tenant `t`. -/
def hasNodeOf (t n : Uuid) (d : Db) : Bool :=
  ((d.nodes.lookup n).map fun r => r.tenantId == t).getD false

/-- There is an `upload_sessions` row `s`. -/
def hasSession (s : Uuid) (d : Db) : Bool := (d.sessions.lookup s).isSome

/-- A new row: an INSERT never replaces one. -/
def insertVersion (v : Uuid) (r : VersionRow) (d : Db) : Db :=
  { d with versions := d.versions.insertNew v r }

/-- `SET status = 'COMPLETED', chunks_received = n`. -/
def completeSession (s : Uuid) (n : Int) (d : Db) : Db :=
  { d with
    sessions := Table.modify s (fun r => { r with status := .completed, chunksReceived := n })
      d.sessions }

end Aegis.Db

namespace Aegis.Ingress

open Db Stmt Cas Txn.Prog

/-- The fields of `BlockMeta` that `CommitFile` writes; the hash is the decoded one. -/
structure BlockMeta where
  blockHash : Hash
  chunkIndex : Int
  offset : Int
  sizeBytes : Int

/-- The arguments of `CommitFile`, the version id the database generates, and the clock readings of
the process and of the database. -/
structure CommitFile where
  tenantId : Uuid
  sessionId : Uuid
  contentSha256 : Hash
  blocks : List BlockMeta
  versionId : Uuid
  clock : Time
  now : Time

/-- The arguments of `CommitFileVersion` and the version id the database generates. -/
structure CommitFileVersion where
  nodeId : Uuid
  totalSize : Int
  contentSha256 : Hash
  createdBy : Uuid
  versionId : Uuid

/-- `next_version_number(n)`: lock the node row, then read the greatest version number. -/
def nextVersionNumber (n : Uuid) : Stmt Int := do
  let _ ← forUpdate (.node n) (hasNode n)
  let v ← read
  check (fitsInteger (v.maxVersion n + 1)) .numericValueOutOfRange
  return v.maxVersion n + 1

/-- `INSERT INTO file_versions`, with its CHECKs, its two unique indexes and its foreign key. -/
def insertFileVersion (versionId : Uuid) (r : VersionRow) : Stmt Unit := do
  check (1 ≤ r.versionNumber) (.checkViolation .fileVersionsVersionNumberCheck)
  check (0 ≤ r.totalSizeBytes) (.checkViolation .fileVersionsTotalSizeBytesCheck)
  let locks := [.row (.version versionId) .update,
    .row (.uqNodeVersion r.nodeId r.versionNumber) .update]
  let v ← stmt (fun _ => locks) (fun _ => locks) (fun _ => insertVersion versionId r)
  check (!hasVersion versionId v) (.uniqueViolation .fileVersionsPkey)
  check (!(v.versionNumbers r.nodeId).contains r.versionNumber) (.uniqueViolation .uqNodeVersion)
  references (.node r.nodeId) (hasNode r.nodeId) .fileVersionsNodeIdFkey

/-- Step 6 of `CommitFile`: the block rows that are missing, and the tenant reference of each row
inserted. -/
def upsertBlocks (tenantId : Uuid) (now : Time) (blocks : List BlockMeta) : Stmt Unit := do
  let inserted ← collect blocks fun b => do
    let isNew ← insertBlockRow b.blockHash ⟨tenantId, b.sizeBytes, .hot, 0, false, now⟩
    return if isNew then some b.blockHash else none
  forEach inserted fun _ =>
    references (.tenant tenantId) (hasTenant tenantId) .casBlocksTenantIdFkey

/-- One row of `INSERT INTO file_manifest_blocks`. -/
def insertManifestRow (versionId : Uuid) (b : BlockMeta) : Stmt Unit := do
  check (fitsInteger b.chunkIndex && fitsInteger b.sizeBytes) .numericValueOutOfRange
  check (0 ≤ b.chunkIndex) (.checkViolation .fileManifestBlocksChunkIndexCheck)
  check (0 ≤ b.offset) (.checkViolation .fileManifestBlocksOffsetBytesCheck)
  check (0 < b.sizeBytes) (.checkViolation .fileManifestBlocksSizeBytesCheck)
  let locks := [.row (.manifest versionId b.chunkIndex) .update]
  let v ← stmt (fun _ => locks) (fun _ => locks)
    (fun _ => insertManifest versionId b.chunkIndex ⟨b.blockHash, b.offset, b.sizeBytes⟩)
  check (!hasManifest versionId b.chunkIndex v) (.uniqueViolation .fileManifestBlocksPkey)

/-- The triggers of one inserted manifest row, in the order they fire: the foreign keys of the
version and of the block, then `manifest_block_added`. -/
def manifestRowTriggers (versionId : Uuid) (b : BlockMeta) : Stmt Unit := do
  references (.version versionId) (hasVersion versionId) .fileManifestBlocksVersionIdFkey
  references (.block b.blockHash) (hasBlock b.blockHash) .fileManifestBlocksBlockHashFkey
  manifestBlockAdded b.blockHash

/-- Step 7 of `CommitFile`: all rows are inserted, then their triggers fire. -/
def insertManifestBlocks (versionId : Uuid) (blocks : List BlockMeta) : Stmt Unit := do
  forEach blocks (insertManifestRow versionId)
  forEach blocks (manifestRowTriggers versionId)

/-- Step 8 of `CommitFile`. -/
def markCompleted (sessionId : Uuid) (n : Int) : Stmt Unit := do
  let s ← read
  if hasSession sessionId s then
    let _ ← rewriteRow (.session sessionId) .noKeyUpdate (hasSession sessionId)
      (hasSession sessionId) (completeSession sessionId n)

/-- Steps 3 to 8 of `CommitFile`, once the session has been read and validated. -/
def commitNode (a : CommitFile) (totalSize : Int) (nodeId : Uuid) : Stmt (Uuid × Int) := do
  let _ ← forUpdate (.node nodeId) (hasNodeOf a.tenantId nodeId)
  let versionNumber ← nextVersionNumber nodeId
  insertFileVersion a.versionId ⟨nodeId, versionNumber, totalSize, a.contentSha256, a.tenantId⟩
  upsertBlocks a.tenantId a.now a.blocks
  insertManifestBlocks a.versionId a.blocks
  markCompleted a.sessionId a.blocks.length
  return (a.versionId, versionNumber)

/-- Step 2 of `CommitFile`: validate the session row. -/
def validateSession (a : CommitFile) (session : SessionRow) : Stmt Unit := do
  check (session.status != .completed) .sessionCompleted
  check (!(session.expiresAt < a.clock)) .sessionExpired
  check (session.tenantId == a.tenantId) .sessionTenantMismatch
  check (a.blocks.length == session.expectedChunks)
    (.wrongBlockCount session.expectedChunks a.blocks.length)

/-- `PgStore.CommitFile`: the id and number of the new version. -/
def commitFile (a : CommitFile) : Stmt (Uuid × Int) := do
  let v ← forUpdate (.session a.sessionId) (hasSession a.sessionId)
  match v.sessions.lookup a.sessionId with
  | none => raise .sessionNotFound
  | some session =>
    validateSession a session
    match session.nodeId with
    | none => raise .sessionHasNoNode
    | some nodeId => commitNode a session.totalSize nodeId

/-- `DatabaseClient.CommitFileVersion`: the number of the new version. -/
def commitFileVersion (a : CommitFileVersion) : Stmt Int := do
  let versionNumber ← nextVersionNumber a.nodeId
  insertFileVersion a.versionId
    ⟨a.nodeId, versionNumber, a.totalSize, a.contentSha256, a.createdBy⟩
  return versionNumber

/-! ## Calls and transactions -/

/-- The calls that commit a version. -/
inductive CommitCall
  | file (a : CommitFile)
  | version (a : CommitFileVersion)

/-- What they return: `CommitFile` the id and number of the version, `CommitFileVersion` its
number. -/
inductive CommitRes
  | file (versionId : Uuid) (number : Int)
  | version (number : Int)

def CommitCall.body : CommitCall → Stmt CommitRes
  | file a => do
    let (versionId, number) ← commitFile a
    return .file versionId number
  | version a => do
    let number ← commitFileVersion a
    return .version number

/-- The calls that write versions, blocks and manifest rows. -/
inductive Call
  | commit (c : CommitCall)
  | deleteVersion (v : Uuid)
  | ensureBlock (h : Hash) (tenantId : Uuid) (sizeBytes : Int) (now : Time)
  | deleteBlocks (hashes : List Hash)
  | gcDeleteUnreferenced (batch : List Hash)
  | updateTier (h : Hash)

/-- What the calls return. -/
inductive Res
  | committed (r : CommitRes)
  | isNew (b : Bool)
  | deleted (n : Nat)
  | swept (n : Nat) (notice : Option Int)
  | done

def Call.body : Call → Stmt Res
  | commit c => do
    let r ← c.body
    return .committed r
  | deleteVersion v => do
    Cas.deleteVersion v
    return .done
  | ensureBlock h tenantId sizeBytes now => do
    let b ← Cas.ensureBlock h tenantId sizeBytes now
    return .isNew b
  | deleteBlocks hashes => do
    let n ← Cas.deleteBlocks hashes
    return .deleted n
  | gcDeleteUnreferenced batch => do
    let (n, notice) ← Cas.gcDeleteUnreferenced batch
    return .swept n notice
  | updateTier h => do
    Cas.updateTier h
    return .done

/-- A transaction made of calls. -/
def transaction : List Call → Stmt (List Res)
  | [] => return []
  | c :: cs => do
    let r ← c.body
    let rs ← transaction cs
    return r :: rs

end Aegis.Ingress
