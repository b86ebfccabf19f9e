import Aegis.Lib.Effect
import Aegis.Cas.Registry

/-!
# The collectors

The four programs that remove unreferenced blocks: `GCWorker.sweep` (internal/cas/gc.go),
`GarbageCollector.sweepOrphanedBlocks` with `processBatch` and `TombstoneConsumer.processMessage`
(internal/gc/gc.go), and `LeaderGCSweeper.RunLeaderSweep` (internal/gc/leader.go), as programs over
the calls they make to the database, the blob store, the event bus and the lock service. The
environment answers each call, with an error if it wants. Logging, metrics and the timestamps of
events are left out. A hash stands for its hexadecimal text, so the decoding that `sweep` does
before it deletes rows succeeds.
-/

namespace Aegis.Gc

/-! ## Calls -/

/-- The fields of `BlockInfo` that the collectors pass on. -/
structure BlockInfo where
  blockHash : Hash
  tenantId : Uuid
  sizeBytes : Int

/-- `TombstoneEvent`. -/
structure TombstoneEvent where
  blockHash : Hash
  tenantId : Uuid
  sizeBytes : Int
  reason : String

/-- A message of the tombstone topic: its position, and the event that `UnmarshalTombstone` finds in
it, if it is one. -/
structure TombstoneMessage where
  offset : Nat
  value : Option TombstoneEvent

/-- What an audit entry records. -/
inductive AuditAction
  | doubleCheckSaved
  | dryRunTombstone
  | tombstoneEmitted
  | blobDeleted
  | blobDeleteFailed
  deriving DecidableEq

/-- `AuditEntry`; fields that are not set are empty. -/
structure AuditEntry where
  action : AuditAction
  blockHash : Hash
  tenantId : Uuid
  sizeBytes : Int := 0
  reason : String := ""
  detail : String := ""

/-- The calls of the collectors. `findOrphans` is the query of `PgRegistry.FindOrphans` and of
`FindOrphanedBlocks`, `deleteBlocks` the statement of `DeleteBlocks` and of `HardDeleteBlocks`. -/
inductive Cmd
  | isLeader
  | findOrphans (windowSeconds limit : Int)
  | doubleCheck (h : Hash)
  | acquire (resource : List Char) (ttlSeconds : Int)
  | release (token : List Char)
  | publish (topic : String) (e : TombstoneEvent)
  | deleteBlob (h : Hash)
  | deleteBlocks (hashes : List Hash)
  | commitMessage (m : TombstoneMessage)
  | audit (e : AuditEntry)

/-- The answers; `none` is an error where a value is expected, and for the blob store no error. -/
def Answer : Cmd → Type
  | .isLeader => Bool
  | .findOrphans _ _ => Option (List BlockInfo)
  | .doubleCheck _ => Option Bool
  | .acquire _ _ => Option (List Char)
  | .release _ => Unit
  | .publish _ _ => Bool
  | .deleteBlob _ => Option String
  | .deleteBlocks _ => Option Nat
  | .commitMessage _ => Unit
  | .audit _ => Unit

/-- A collector. -/
abbrev Collector (β : Type) : Type := Proc Cmd Answer β

open Proc

def isLeader : Collector Bool := perform Cmd.isLeader

def findOrphans (windowSeconds limit : Int) : Collector (Option (List BlockInfo)) :=
  perform (Cmd.findOrphans windowSeconds limit)

def doubleCheckBlock (h : Hash) : Collector (Option Bool) := perform (Cmd.doubleCheck h)

def acquire (resource : List Char) (ttlSeconds : Int) : Collector (Option (List Char)) :=
  perform (Cmd.acquire resource ttlSeconds)

def release (token : List Char) : Collector Unit := perform (Cmd.release token)

def publishBlockTombstone (topic : String) (e : TombstoneEvent) : Collector Bool :=
  perform (Cmd.publish topic e)

def deleteBlock (h : Hash) : Collector (Option String) := perform (Cmd.deleteBlob h)

def deleteBlocks (hashes : List Hash) : Collector (Option Nat) := perform (Cmd.deleteBlocks hashes)

def commitMessage (m : TombstoneMessage) : Collector Unit := perform (Cmd.commitMessage m)

def audit (e : AuditEntry) : Collector Unit := perform (Cmd.audit e)

/-! ## The CAS worker -/

/-- `GCSafetyWindow`, in seconds. -/
def gcSafetyWindow : Int := 7 * 24 * 3600

/-- The limit that `PgRegistry.FindOrphans` puts on its query. -/
def orphanLimit (batchSize : Int) : Int :=
  if batchSize ≤ 0 then 1000 else if batchSize > 10000 then 10000 else batchSize

/-- Best-effort blob deletion; a worker without a blob deleter cleans the database only. -/
def deleteBlobs (hasBlobDeleter : Bool) (orphans : List BlockInfo) : Collector Unit :=
  if hasBlobDeleter then forEach (fun o => do let _ ← deleteBlock o.blockHash) orphans
  else return

/-- The second half of `sweep`: blobs first, then rows. -/
def removeOrphans (hasBlobDeleter : Bool) (orphans : List BlockInfo) : Collector Unit := do
  deleteBlobs hasBlobDeleter orphans
  let _ ← deleteBlocks (orphans.map BlockInfo.blockHash)

/-- `GCWorker.sweep`. -/
def sweep (batchSize : Int) (hasBlobDeleter : Bool) : Collector Unit := do
  match ← findOrphans gcSafetyWindow (orphanLimit batchSize) with
  | none => return
  | some orphans => if orphans.isEmpty then return else removeOrphans hasBlobDeleter orphans

/-! ## The generational collector -/

/-- The fields of `Config` that a sweep reads. -/
structure Config where
  safetyWindow : Time
  batchSize : Int
  maxBlocksPerHour : Int
  dryRun : Bool

/-- `applyDefaults`. -/
def Config.applyDefaults (c : Config) : Config where
  safetyWindow := if c.safetyWindow ≤ 0 then 7 * 24 * 3600 * 10 ^ 9 else c.safetyWindow
  batchSize := if c.batchSize ≤ 0 then 1000 else c.batchSize
  maxBlocksPerHour := if c.maxBlocksPerHour ≤ 0 then 5000 else c.maxBlocksPerHour
  dryRun := c.dryRun

/-- The collector as `New` makes it; it may have no blob store. -/
structure GarbageCollector where
  cfg : Config
  hasBlob : Bool

/-- `New`. -/
def GarbageCollector.new (hasBlob : Bool) (cfg : Config) : GarbageCollector :=
  ⟨cfg.applyDefaults, hasBlob⟩

/-- The query of `FindOrphanedBlocks`: the window in whole seconds. -/
def GarbageCollector.findOrphanedBlocks (gc : GarbageCollector) :
    Collector (Option (List BlockInfo)) :=
  findOrphans (gc.cfg.safetyWindow / 10 ^ 9) gc.cfg.batchSize

/-- The tombstone of a block. -/
def tombstoneOf (b : BlockInfo) : TombstoneEvent :=
  ⟨b.blockHash, b.tenantId, b.sizeBytes, "orphan_gc"⟩

/-- The row of the block is deleted; returns whether there was one. -/
def hardDelete (h : Hash) : Collector Bool := do
  match ← deleteBlocks [h] with
  | none => return false
  | some deleted => return 0 < deleted

/-- The last steps of a round of `processBatch`, once the tombstone is out: the blob, then the row.
Returns whether the row was deleted. -/
def GarbageCollector.purgeBlock (gc : GarbageCollector) (b : BlockInfo) : Collector Bool := do
  if gc.hasBlob then
    match ← deleteBlock b.blockHash with
    | some err =>
      audit
        { action := .blobDeleteFailed, blockHash := b.blockHash, tenantId := b.tenantId,
          detail := err }
      return false
    | none =>
      audit
        { action := .blobDeleted, blockHash := b.blockHash, tenantId := b.tenantId,
          sizeBytes := b.sizeBytes }
      hardDelete b.blockHash
  else hardDelete b.blockHash

/-- What a round of `processBatch` does with a block that the double check found unreferenced. -/
def GarbageCollector.expireBlock (gc : GarbageCollector) (b : BlockInfo) : Collector Bool := do
  if gc.cfg.dryRun then
    audit ⟨.dryRunTombstone, b.blockHash, b.tenantId, b.sizeBytes, "dry_run", ""⟩
    return false
  else if ← publishBlockTombstone "cas-tombstones" (tombstoneOf b) then
    audit ⟨.tombstoneEmitted, b.blockHash, b.tenantId, b.sizeBytes, "orphan_gc", ""⟩
    gc.purgeBlock b
  else return false

/-- One round of `processBatch` below the rate limit: whether the row was deleted. -/
def GarbageCollector.processBlock (gc : GarbageCollector) (b : BlockInfo) : Collector Bool := do
  match ← doubleCheckBlock b.blockHash with
  | none => return false
  | some false =>
    audit
      { action := .doubleCheckSaved, blockHash := b.blockHash, tenantId := b.tenantId,
        detail := "block re-referenced before deletion, skipping" }
    return false
  | some true => gc.expireBlock b

/-- `processBatch`: the count of deleted blocks, for the rate limit, goes from round to round. -/
def GarbageCollector.processBatch (gc : GarbageCollector) : List BlockInfo → Int → Collector Int
  | [], deletionCount => return deletionCount
  | b :: batch, deletionCount =>
    if deletionCount ≥ gc.cfg.maxBlocksPerHour then return deletionCount
    else do
      let deleted ← gc.processBlock b
      gc.processBatch batch (if deleted then deletionCount + 1 else deletionCount)

/-- The rate limiter of a collector. -/
structure RateLimiter where
  deletionCount : Int
  rateResetAt : Time

/-- `blocks[i:min(i+size, len(blocks))]` for `i = 0, size, …`. -/
def batches (size : Nat) (blocks : List BlockInfo) : List (List BlockInfo) :=
  (List.range ((blocks.length + size - 1) / size)).map fun i => (blocks.drop (i * size)).take size

/-- The batches of a sweep, one after the other. -/
def GarbageCollector.processBatches (gc : GarbageCollector) (r : RateLimiter)
    (blocks : List BlockInfo) : Collector RateLimiter := do
  let deletionCount ← foldEach (fun n batch => gc.processBatch batch n)
    (batches gc.cfg.batchSize.toNat blocks) r.deletionCount
  return { r with deletionCount := deletionCount }

/-- `sweepOrphanedBlocks`, with the clock reading at its start. -/
def GarbageCollector.sweepOrphanedBlocks (gc : GarbageCollector) (now : Time) (r : RateLimiter) :
    Collector RateLimiter := do
  let r := if now - r.rateResetAt > 3600 * 10 ^ 9 then ⟨0, now⟩ else r
  match ← gc.findOrphanedBlocks with
  | none => return r
  | some blocks => if blocks.isEmpty then return r else gc.processBatches r blocks

/-! ## The leader's sweep -/

/-- The resource that is locked for a block. -/
def lockKey (h : Hash) : List Char := "gc:block:".toList ++ hexText 64 h.toNat

/-- The tombstone of the leader's sweep; whether it could be published is not looked at. -/
def announce (hasPublisher : Bool) (b : BlockInfo) : Collector Unit :=
  if hasPublisher then do let _ ← publishBlockTombstone "cas-tombstones" (tombstoneOf b)
  else return

/-- What the leader does with a block under its lock. -/
def retireBlock (hasPublisher : Bool) (b : BlockInfo) : Collector Unit := do
  match ← doubleCheckBlock b.blockHash with
  | some true =>
    announce hasPublisher b
    let _ ← deleteBlocks [b.blockHash]
  | _ => return

/-- One round of `RunLeaderSweep`. -/
def leaderBlock (hasPublisher : Bool) (b : BlockInfo) : Collector Unit := do
  match ← acquire (lockKey b.blockHash) 10 with
  | none => return
  | some token =>
    retireBlock hasPublisher b
    release token

/-- The sweep of a node that is the leader: whether it returned without error. -/
def leaderSweep (gc : GarbageCollector) (hasPublisher : Bool) : Collector Bool := do
  match ← gc.findOrphanedBlocks with
  | none => return false
  | some blocks =>
    forEach (leaderBlock hasPublisher) blocks
    return true

/-- `RunLeaderSweep`: the collector it wraps provides the store, the window and the batch size. -/
def runLeaderSweep (gc : GarbageCollector) (hasElector hasPublisher : Bool) : Collector Bool := do
  if hasElector then
    if ← isLeader then leaderSweep gc hasPublisher else return true
  else leaderSweep gc hasPublisher

/-! ## The tombstone consumer -/

/-- `processMessage`. -/
def processMessage (dryRun : Bool) (m : TombstoneMessage) : Collector Unit := do
  match m.value with
  | none => return
  | some event =>
    if dryRun then commitMessage m
    else
      match ← deleteBlock event.blockHash with
      -- not committed, so that it is delivered again
      | some _ => return
      | none =>
        let _ ← deleteBlocks [event.blockHash]
        commitMessage m

/-! ## Checks -/

/-- The two queries check that a block is unreferenced; tombstones and blob deletions are what the
check is for. -/
def checks : Discipline Cmd Answer Hash where
  asks
    | .findOrphans _ _ => True
    | .doubleCheck _ => True
    | _ => False
  acts
    | .publish _ e, h => e.blockHash = h
    | .deleteBlob h', h => h' = h
    | _, _ => False
  confirms
    | .findOrphans _ _, answer, h => ∃ bs, answer = some bs ∧ h ∈ bs.map BlockInfo.blockHash
    | .doubleCheck h', answer, h => answer = some true ∧ h' = h
    | _, _, _ => False

/-- The same checks; besides, the deletion of rows is an act. -/
def removals : Discipline Cmd Answer Hash where
  asks := checks.asks
  acts
    | .deleteBlocks hashes, h => h ∈ hashes
    | c, h => checks.acts c h
  confirms := checks.confirms

open Discipline

variable {S : Hash → Prop} {gc : GarbageCollector}

/-- A piece of a collector that is confined in what it removes is confined in what it checks for. -/
theorem confined_checks (hp : removals.Confined S p) : checks.Confined S p := by
  refine hp.mono (fun _ => id) (fun c k hk => ?_) fun _ => id
  cases c with
  | deleteBlocks hashes => exact hk.elim
  | _ => exact hk

theorem hardDelete_confined : removals.Confined (h = ·) (hardDelete h) := by
  refine ⟨id, fun k hk => (List.mem_singleton.1 hk).symm, fun a => ?_⟩
  cases a with
  | none => trivial
  | some n => trivial

theorem removeOrphans_confined :
    removals.Confined (· ∈ orphans.map BlockInfo.blockHash) (removeOrphans b orphans) := by
  refine Confined.bind ?_ fun _ => ⟨id, fun _ hk => hk, fun _ => trivial⟩
  cases b with
  | false => trivial
  | true =>
    refine Confined.forEach fun o ho => ⟨id, fun k hk => ?_, fun _ => trivial⟩
    exact List.mem_map.2 ⟨o, ho, hk⟩

/-- What `sweep` does with the answer to its query. -/
theorem sweep_confined :
    removals.Confined (· ∈ orphans.map BlockInfo.blockHash)
      (if orphans.isEmpty then pure () else removeOrphans b orphans) := by
  split
  · trivial
  · exact removeOrphans_confined

/-- The worker deletes the blobs that its query found. -/
theorem sweep_careful : checks.Careful (sweep batchSize b) := by
  refine Careful.ask_confined trivial (fun _ => id) fun a => ?_
  cases a with
  | none => trivial
  | some orphans =>
    exact (confined_checks sweep_confined).mono (fun _ => id) (fun _ _ => id)
      fun k hk => ⟨orphans, rfl, hk⟩

variable {hasPublisher : Bool} {b : BlockInfo}

theorem purgeBlock_confined : removals.Confined (b.blockHash = ·) (gc.purgeBlock b) := by
  show removals.Confined _ (if gc.hasBlob then _ else _)
  split
  · refine ⟨id, fun _ hk => hk, fun a => ?_⟩
    cases a with
    | none => exact ⟨id, nofun, fun _ => hardDelete_confined⟩
    | some err => exact ⟨id, nofun, fun _ => trivial⟩
  · exact hardDelete_confined

theorem expireBlock_confined : removals.Confined (b.blockHash = ·) (gc.expireBlock b) := by
  show removals.Confined _ (if gc.cfg.dryRun then _ else _)
  split
  · exact ⟨id, nofun, fun _ => trivial⟩
  · refine ⟨id, fun _ hk => hk, fun a => ?_⟩
    cases a with
    | false => trivial
    | true => exact ⟨id, nofun, fun _ => purgeBlock_confined⟩

/-- A round acts on the block that it has checked twice. -/
theorem processBlock_careful : checks.Careful (gc.processBlock b) := by
  refine Careful.ask_confined trivial (fun _ => id) fun a => ?_
  match a with
  | none => trivial
  | some false => exact ⟨id, nofun, fun _ => trivial⟩
  | some true =>
    exact (confined_checks expireBlock_confined).mono (fun _ => id) (fun _ _ => id)
      fun k hk => ⟨rfl, hk⟩

theorem processBatch_careful : checks.Careful (gc.processBatch batch n) := by
  induction batch generalizing n with
  | nil => exact Careful.ret
  | cons b batch ih =>
    rw [GarbageCollector.processBatch]
    split
    · exact Careful.ret
    · exact processBlock_careful.bind fun _ => ih

/-- A careful use of what the query found is careful altogether. -/
theorem findOrphans_careful (hnext : ∀ a, checks.Careful (next a)) :
    checks.Careful ((findOrphans w l).bind next) :=
  Careful.ask trivial (fun _ => id) (fun a => (hnext a).guarded) fun a k harmed =>
    absurd harmed ((hnext a).unarmed k)

theorem sweepOrphanedBlocks_careful : checks.Careful (gc.sweepOrphanedBlocks now r) := by
  refine findOrphans_careful fun a => ?_
  cases a with
  | none => exact Careful.ret
  | some blocks =>
    show checks.Careful (if blocks.isEmpty then _ else _)
    split
    · exact Careful.ret
    · exact (Careful.foldEach (fun _ _ => processBatch_careful) _ _).bind fun _ => Careful.ret

/-- What the leader does with a block that its double check found unreferenced. -/
theorem retire_confined :
    removals.Confined (b.blockHash = ·) (do
      announce hasPublisher b
      let _ ← deleteBlocks [b.blockHash]) := by
  refine Confined.bind ?_ fun _ =>
    ⟨id, fun k hk => (List.mem_singleton.1 hk).symm, fun _ => trivial⟩
  cases hasPublisher with
  | false => trivial
  | true => exact ⟨id, fun _ hk => hk, fun _ => trivial⟩

theorem retireBlock_careful : checks.Careful (retireBlock hasPublisher b) := by
  refine Careful.ask_confined trivial (fun _ => id) fun a => ?_
  match a with
  | none => trivial
  | some false => trivial
  | some true =>
    exact (confined_checks retire_confined).mono (fun _ => id) (fun _ _ => id)
      fun k hk => ⟨rfl, hk⟩

theorem leaderBlock_careful : checks.Careful (leaderBlock hasPublisher b) := by
  refine Careful.pass id (fun _ => id) fun a => ?_
  cases a with
  | none => exact Careful.ret
  | some token =>
    exact retireBlock_careful.bind fun _ => Careful.pass id (fun _ => id) fun _ => Careful.ret

/-- The leader publishes tombstones of blocks that it has checked under the lock. -/
theorem runLeaderSweep_careful : checks.Careful (runLeaderSweep gc hasElector hasPublisher) := by
  have hsweep : checks.Careful (leaderSweep gc hasPublisher) := by
    refine findOrphans_careful fun a => ?_
    cases a with
    | none => exact Careful.ret
    | some blocks =>
      exact (Careful.forEach (fun _ => leaderBlock_careful) blocks).bind fun _ => Careful.ret
  cases hasElector with
  | false => exact hsweep
  | true =>
    refine Careful.pass id (fun _ => id) fun a => ?_
    cases a with
    | false => exact Careful.ret
    | true => exact hsweep

/-- The consumer deletes the blob and the row its message names, and does not check. -/
theorem processMessage_confined :
    removals.Confined (fun h => ∃ e, m.value = some e ∧ e.blockHash = h)
      (processMessage dryRun m) := by
  unfold processMessage
  cases hm : m.value with
  | none => trivial
  | some e =>
    cases dryRun with
    | true => exact ⟨id, nofun, fun _ => trivial⟩
    | false =>
      refine ⟨id, fun h hh => ⟨e, rfl, hh⟩, fun a => ?_⟩
      cases a with
      | some err => trivial
      | none =>
        refine ⟨id, fun h hh => ⟨e, rfl, (List.mem_singleton.1 hh).symm⟩, fun _ => ?_⟩
        exact ⟨id, nofun, fun _ => trivial⟩

end Aegis.Gc
