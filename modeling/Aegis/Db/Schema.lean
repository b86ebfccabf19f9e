import Aegis.Lib.Table
import Aegis.Lib.Rely
import Aegis.Uuid

/-!
# The database

The tables of `db/schema.sql` that the commit path, the CAS registry, the collectors and the
namespace procedures read and write, the row locks Postgres takes on them, and the errors its
statements and procedures raise. Columns that none of these read are left out (timestamps other
than `created_at` and `expires_at`, MIME types, JSON metadata, client addresses). The sessions
table has the `status` column that `internal/ingress/store.go` and `cmd/ingest/gc_adapter.go` use,
and a default of `expires_at`, which `schema.sql` does not give and the INSERT of `store.go` leaves
out; the cast of the client's address to `inet`, which can fail, is left out with the column. Block
hashes are the 32 octets the CHECK on `block_hash` demands.
-/

namespace Aegis

/-! ## Rows -/

/-- A block hash, 32 octets. -/
abbrev Hash : Type := BitVec 256

/-- A point in time, in nanoseconds. -/
abbrev Time : Type := Int

/-- The `ltree` type: the labels of a path from the root. -/
abbrev LTree : Type := List (List Char)

inductive NodeType
  | file
  | directory
  deriving DecidableEq

inductive StorageTier
  | hot
  | warm
  | cold
  deriving DecidableEq

inductive SessionStatus
  | initiated
  | completed
  | expired
  deriving DecidableEq

/-- A row of `tenants`. -/
structure TenantRow where
  storageQuotaBytes : Int
  usedBytes : Int

/-- A row of `namespace_nodes`. -/
structure NodeRow where
  tenantId : Uuid
  parentId : Option Uuid
  name : List Char
  type : NodeType
  lineagePath : LTree
  aclEpoch : Int
  isDeleted : Bool
  deriving DecidableEq

/-- A row of `file_versions`. -/
structure VersionRow where
  nodeId : Uuid
  versionNumber : Int
  totalSizeBytes : Int
  contentSha256 : Hash
  createdBy : Uuid

/-- A row of `cas_blocks`. -/
structure BlockRow where
  tenantId : Uuid
  sizeBytes : Int
  storageTier : StorageTier
  refCount : Int
  verified : Bool
  createdAt : Time

/-- A row of `file_manifest_blocks`; its key is the version and the chunk index. -/
structure ManifestRow where
  blockHash : Hash
  offsetBytes : Int
  sizeBytes : Int

/-- A row of `upload_sessions`. -/
structure SessionRow where
  tenantId : Uuid
  nodeId : Option Uuid
  status : SessionStatus
  totalSize : Int
  expectedChunks : Int
  chunksReceived : Int
  expiresAt : Time

/-- The contents of the database. -/
structure Db where
  tenants : Table Uuid TenantRow
  nodes : Table Uuid NodeRow
  versions : Table Uuid VersionRow
  blocks : Table Hash BlockRow
  manifest : Table (Uuid × Int) ManifestRow
  sessions : Table Uuid SessionRow

namespace Db

/-- A database with tenants, nodes and upload sessions to which nothing has been committed. -/
def seed (tenants : Table Uuid TenantRow) (nodes : Table Uuid NodeRow)
    (sessions : Table Uuid SessionRow) : Db :=
  ⟨tenants, nodes, ∅, ∅, ∅, sessions⟩

/-- The number of `file_manifest_blocks` rows that name a hash. -/
def manifestCount (d : Db) (h : Hash) : Nat := d.manifest.count fun _ r => r.blockHash == h

/-- The numbers of the versions of a node. -/
def versionNumbers (d : Db) (n : Uuid) : List Int :=
  (d.versions.entries.filter fun e => e.2.nodeId == n).map fun e => e.2.versionNumber

/-- `COALESCE(MAX(version_number), 0)` over the versions of a node. -/
def maxVersion (d : Db) (n : Uuid) : Int := (d.versionNumbers n).max?.getD 0

end Db

/-! ## Row locks -/

/-- The row-lock modes in use: `FOR KEY SHARE` (foreign-key checks), `FOR NO KEY UPDATE` (an UPDATE
that leaves the key columns alone) and `FOR UPDATE` (also DELETE, and the inserter of a row). -/
inductive LockMode
  | keyShare
  | noKeyUpdate
  | update
  deriving DecidableEq

/-- Postgres' table of conflicting row-lock modes, for the modes in use. -/
def LockMode.conflicts : LockMode → LockMode → Bool
  | .update, _ => true
  | _, .update => true
  | .noKeyUpdate, .noKeyUpdate => true
  | _, _ => false

theorem LockMode.conflicts_symm (m m' : LockMode) : m.conflicts m' = m'.conflicts m := by
  cases m <;> cases m' <;> rfl

/-- The modes under which a row is written. -/
def LockMode.writes : LockMode → Bool
  | .keyShare => false
  | .noKeyUpdate => true
  | .update => true

/-- Two writers of a row conflict. -/
theorem LockMode.conflicts_of_writes {m m' : LockMode} (h : m.writes = true)
    (h' : m'.writes = true) : m.conflicts m' = true := by
  revert h h'
  cases m <;> cases m' <;> decide

/-- What can be locked: a row by its primary key, or an entry of a unique index. -/
inductive RowKey
  | tenant (t : Uuid)
  | node (n : Uuid)
  | version (v : Uuid)
  | manifest (v : Uuid) (chunkIndex : Int)
  | block (h : Hash)
  | session (s : Uuid)
  | uqNodeVersion (n : Uuid) (number : Int)
  | uqParentName (t p : Uuid) (name : List Char) (isDeleted : Bool)
  | uqTenantRoot (t : Uuid)
  deriving DecidableEq

/-- What a transaction holds: row locks, and two marks that nobody waits for and that change
nothing: it has read the path of a node to place another node under it, or it has picked the node
for the path rewrite of a move. -/
inductive DbLock
  | row (k : RowKey) (m : LockMode)
  | readPath (n : Uuid)
  | rewritePath (n : Uuid)
  deriving DecidableEq

namespace DbLock

/-- Row locks conflict on one row in conflicting modes; reading a path conflicts with rewriting
it. -/
def conflicts : DbLock → DbLock → Bool
  | row k m, row k' m' => k == k' && m.conflicts m'
  | readPath n, rewritePath n' => n == n'
  | rewritePath n, readPath n' => n == n'
  | _, _ => false

theorem conflicts_symm (a b : DbLock) : a.conflicts b = b.conflicts a := by
  cases a <;> cases b <;> simp only [conflicts, Bool.beq_comm, LockMode.conflicts_symm]

instance : Lock DbLock := ⟨conflicts, conflicts_symm⟩

/-- What conflicts with a row lock is a lock of the same row. -/
theorem eq_row_of_conflicts {l : DbLock} (h : Lock.conflicts l (.row k m) = true) :
    ∃ m', l = .row k m' ∧ m'.conflicts m = true := by
  cases l with
  | row k' m' =>
    obtain ⟨hk, hm⟩ := Bool.and_eq_true_iff.1 h
    cases eq_of_beq hk
    exact ⟨m', rfl, hm⟩
  | readPath n => cases h
  | rewritePath n => cases h

/-- An exclusive lock and any other of the row. -/
theorem conflicts_update (k : RowKey) (m : LockMode) :
    Lock.conflicts (.row k .update : DbLock) (.row k m) = true :=
  Bool.and_eq_true_iff.2 ⟨beq_self_eq_true k, rfl⟩

/-- What is compatible with a writer's lock on a row is no writer's lock on the same row. -/
theorem ne_of_compatible {ls : List DbLock} (hl : ∀ a ∈ ls, Lock.conflicts a (.row k' m') = false)
    (hm : m.writes = true) (hm' : m'.writes = true) (hmem : .row k m ∈ ls) : k' ≠ k := by
  rintro rfl
  have := hl _ hmem
  simp [Lock.conflicts, conflicts, LockMode.conflicts_of_writes hm hm'] at this

end DbLock

/-! ## Errors -/

/-- The constraints of the schema that the modelled statements can violate. -/
inductive Constraint
  | namespaceNodesPkey
  | uqParentName
  | uqTenantRoot
  | nodesFileHasParent
  | nodesNameNotBlank
  | namespaceNodesTenantIdFkey
  | namespaceNodesParentIdFkey
  | fileVersionsPkey
  | uqNodeVersion
  | fileVersionsVersionNumberCheck
  | fileVersionsTotalSizeBytesCheck
  | fileVersionsNodeIdFkey
  | casBlocksTenantIdFkey
  | casBlocksSizeBytesCheck
  | casBlocksRefCountCheck
  | fileManifestBlocksPkey
  | fileManifestBlocksChunkIndexCheck
  | fileManifestBlocksOffsetBytesCheck
  | fileManifestBlocksSizeBytesCheck
  | fileManifestBlocksVersionIdFkey
  | fileManifestBlocksBlockHashFkey
  | uploadSessionsPkey
  | uploadSessionsTotalSizeCheck
  | uploadSessionsExpectedChunksCheck
  | uploadSessionsTenantIdFkey
  | uploadSessionsNodeIdFkey
  deriving DecidableEq

/-- What a statement or a procedure raises, and what the Go code around it returns instead of
going on. -/
inductive Err
  | uniqueViolation (c : Constraint)
  | foreignKeyViolation (c : Constraint)
  | restrictViolation (c : Constraint)
  | checkViolation (c : Constraint)
  | numericValueOutOfRange
  | stringDataRightTruncation
  | ltreeTooManyLevels
  | ltreeInvalidPositions
  | programLimitExceeded
  | parentMissing (parent : Uuid)
  | crossTenantParent (parentTenant tenant : Uuid)
  | parentNotDirectory
  | parentDeleted
  | directReparentForbidden
  | rootMoveForbidden
  | invalidTargetParent
  | lineageTamper
  | moveInvalidArguments
  | moveNodeNotFound
  | sourceDeleted
  | targetNotDirectory
  | targetDeleted
  | cycle
  | nameConflict (name : List Char)
  | moveRemappedZeroRows
  | nodeNotFound
  | casRowMissing (h : Hash)
  | casRowMissingOnDelete (h : Hash)
  | sessionNotFound
  | sessionCompleted
  | sessionExpired
  | sessionTenantMismatch
  | wrongBlockCount (expected got : Int)
  | sessionHasNoNode
  deriving DecidableEq

/-- The message of an error: the texts of the RAISE statements of `db/stored-procedures.sql` and
the errors of `internal/ingress`; for the errors Postgres raises itself, the name of the
condition. -/
def Err.message : Err → String
  | uniqueViolation _ => "unique_violation"
  | foreignKeyViolation _ => "foreign_key_violation"
  | restrictViolation _ => "update or delete on table violates foreign key constraint"
  | checkViolation _ => "check_violation"
  | numericValueOutOfRange => "numeric_value_out_of_range"
  | stringDataRightTruncation => "string_data_right_truncation"
  | ltreeTooManyLevels => "number of ltree labels exceeds the maximum allowed (65535)"
  | ltreeInvalidPositions => "invalid positions"
  | programLimitExceeded => "program_limit_exceeded"
  | parentMissing p => "AEGIS/PARENT_MISSING: parent " ++ String.ofList p.text ++ " does not exist"
  | crossTenantParent t t' =>
    "AEGIS/CROSS_TENANT_PARENT: " ++ String.ofList t.text ++ " vs " ++ String.ofList t'.text
  | parentNotDirectory => "AEGIS/PARENT_NOT_DIRECTORY"
  | parentDeleted => "AEGIS/PARENT_DELETED"
  | directReparentForbidden => "AEGIS/DIRECT_REPARENT_FORBIDDEN: use move_directory()"
  | rootMoveForbidden => "AEGIS/ROOT_MOVE_FORBIDDEN: tenant roots are immutable"
  | invalidTargetParent => "AEGIS/INVALID_TARGET_PARENT"
  | lineageTamper => "AEGIS/LINEAGE_TAMPER: path is trigger-computed"
  | moveInvalidArguments => "AEGIS/MOVE_INVALID_ARGUMENTS"
  | moveNodeNotFound => "AEGIS/MOVE_NODE_NOT_FOUND"
  | sourceDeleted => "AEGIS/SOURCE_DELETED"
  | targetNotDirectory => "AEGIS/TARGET_NOT_DIRECTORY"
  | targetDeleted => "AEGIS/TARGET_DELETED"
  | cycle => "AEGIS/CYCLE: Cyclic hierarchy violation: Target is a descendant of Source."
  | nameConflict name =>
    "AEGIS/NAME_CONFLICT: \"" ++ String.ofList name ++ "\" exists at destination"
  | moveRemappedZeroRows => "AEGIS/MOVE_REMAPPED_ZERO_ROWS"
  | nodeNotFound => "AEGIS/NODE_NOT_FOUND"
  | casRowMissing h => "AEGIS/CAS_ROW_MISSING: \\x" ++ String.ofList (hexText 64 h.toNat)
  | casRowMissingOnDelete h =>
    "AEGIS/CAS_ROW_MISSING_ON_DELETE: \\x" ++ String.ofList (hexText 64 h.toNat)
  | sessionNotFound => "ingress: upload session not found"
  | sessionCompleted => "ingress: upload session already completed"
  | sessionExpired => "ingress: upload session expired"
  | sessionTenantMismatch => "ingress: session tenant mismatch"
  | wrongBlockCount expected got =>
    "ingress: bad request: expected " ++ toString expected ++ " blocks, got " ++ toString got
  | sessionHasNoNode => "ingress: bad request: session has no node_id"

/-! ## Integers -/

/-- `INTEGER` holds the value. -/
def fitsInteger (n : Int) : Bool := -2 ^ 31 ≤ n && n < 2 ^ 31

/-- `BIGINT` holds the value. -/
def fitsBigint (n : Int) : Bool := -2 ^ 63 ≤ n && n < 2 ^ 63

end Aegis
