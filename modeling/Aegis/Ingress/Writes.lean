import Aegis.Ingress.Store

/-!
# What the calls write

Every change that a call can make to the tables, one constructor for each statement that writes
(`Call.Writes`). A call changes the database by these changes and no others (`Call.body_uses`), so a
relation between databases that admits each of them contains all that the call does
(`Call.body_within_of_writes`). Facts about which rows a transaction can touch are derived from
here, without another look at the statements.
-/

namespace Aegis.Ingress

open Db Stmt Cas Txn Txn.Prog

/-- The changes that the statements of a call make; `skip` is a statement that changes nothing. -/
inductive Call.Writes : Call → (Db → Db) → Prop
  | skip {c : Call} : Writes c id
  | fileVersion {a : CommitFile} (nodeId : Uuid) (number totalSize : Int) :
    Writes (.commit (.file a))
      (insertVersion a.versionId ⟨nodeId, number, totalSize, a.contentSha256, a.tenantId⟩)
  | fileBlock {a : CommitFile} {b : BlockMeta} : b ∈ a.blocks →
    Writes (.commit (.file a))
      (insertBlock b.blockHash ⟨a.tenantId, b.sizeBytes, .hot, 0, false, a.now⟩)
  | fileManifest {a : CommitFile} {b : BlockMeta} : b ∈ a.blocks →
    Writes (.commit (.file a))
      (insertManifest a.versionId b.chunkIndex ⟨b.blockHash, b.offset, b.sizeBytes⟩)
  | fileRef {a : CommitFile} {b : BlockMeta} : b ∈ a.blocks →
    Writes (.commit (.file a)) (addRef b.blockHash)
  | fileSession {a : CommitFile} :
    Writes (.commit (.file a)) (completeSession a.sessionId a.blocks.length)
  | version {a : CommitFileVersion} (number : Int) :
    Writes (.commit (.version a))
      (insertVersion a.versionId ⟨a.nodeId, number, a.totalSize, a.contentSha256, a.createdBy⟩)
  | eraseVersion (v : Uuid) : Writes (.deleteVersion v) (eraseVersion v)
  | eraseManifest (v : Uuid) (i : Int) : Writes (.deleteVersion v) (eraseManifest v i)
  | dropRef (v : Uuid) (h : Hash) : Writes (.deleteVersion v) (dropRef h)
  | ensure (h : Hash) (t : Uuid) (size : Int) (now : Time) :
    Writes (.ensureBlock h t size now) (insertBlock h ⟨t, size, .hot, 1, false, now⟩)
  | eraseBlock {hashes : List Hash} {h : Hash} : h ∈ hashes →
    Writes (.deleteBlocks hashes) (eraseBlock h)
  | sweepBlock {batch : List Hash} {h : Hash} : h ∈ batch →
    Writes (.gcDeleteUnreferenced batch) (Db.eraseBlock h)
  | retier (h : Hash) : Writes (.updateTier h) (retier h)

section
variable {W : (Db → Db) → Prop} (hid : W id)
include hid

theorem insertBlockRow_uses (hw : W (insertBlock h r)) : (insertBlockRow h r).Uses W := by
  refine Uses.check.bind fun _ => Uses.check.bind fun _ => ?_
  refine (Uses.stmt (fun v => ?_) fun v => ?_).bind fun _ => Uses.ret
  · cases hasBlock h v with
    | false => exact List.Subset.refl _
    | true => exact List.nil_subset _
  · cases hasBlock h v with
    | false => exact hw
    | true => exact hid

theorem nextVersionNumber_uses : (nextVersionNumber n).Uses W :=
  (forUpdate_uses hid).bind fun _ => (Uses.read hid).bind fun _ =>
    Uses.check.bind fun _ => Uses.ret

theorem insertFileVersion_uses (hw : W (insertVersion v r)) : (insertFileVersion v r).Uses W := by
  refine Uses.check.bind fun _ => Uses.check.bind fun _ => ?_
  refine (Uses.stmt (fun _ => List.Subset.refl _) fun _ => hw).bind fun _ => ?_
  refine Uses.check.bind fun _ => Uses.check.bind fun _ => ?_
  exact references_uses hid

theorem upsertBlocks_uses {blocks : List BlockMeta}
    (hw : ∀ b ∈ blocks, W (insertBlock b.blockHash ⟨t, b.sizeBytes, .hot, 0, false, now⟩)) :
    (upsertBlocks t now blocks).Uses W := by
  refine (Uses.collect fun b hb => ?_).bind fun _ => Uses.forEach fun _ _ => ?_
  · exact (insertBlockRow_uses hid (hw b hb)).bind fun _ => Uses.ret
  · exact references_uses hid

theorem manifestBlockAdded_uses (hw : W (addRef h)) : (manifestBlockAdded h).Uses W := by
  refine (Uses.read hid).bind fun _ => Uses.check.bind fun _ => ?_
  refine (rewriteRow_uses hid hw).bind fun _ => ?_
  exact Uses.check.bind fun _ => Uses.check

theorem insertManifestBlocks_uses {blocks : List BlockMeta}
    (hrow : ∀ b ∈ blocks,
      W (insertManifest v b.chunkIndex ⟨b.blockHash, b.offset, b.sizeBytes⟩))
    (href : ∀ b ∈ blocks, W (addRef b.blockHash)) : (insertManifestBlocks v blocks).Uses W := by
  refine (Uses.forEach fun b hb => ?_).bind fun _ => Uses.forEach fun b hb => ?_
  · refine Uses.check.bind fun _ => Uses.check.bind fun _ => Uses.check.bind fun _ => ?_
    refine Uses.check.bind fun _ => ?_
    exact (Uses.stmt (fun _ => List.Subset.refl _) fun _ => hrow b hb).bind fun _ => Uses.check
  · refine (references_uses hid).bind fun _ => (references_uses hid).bind fun _ => ?_
    exact manifestBlockAdded_uses hid (href b hb)

theorem manifestBlockRemoved_uses (hw : W (Db.dropRef h)) : (manifestBlockRemoved h).Uses W := by
  refine (Uses.read hid).bind fun _ => Uses.check.bind fun _ => ?_
  refine (rewriteRow_uses hid hw).bind fun _ => ?_
  exact Uses.check.bind fun _ => Uses.check

/-- A DELETE touches rows that its condition names. -/
theorem deleteOrphans_uses (hw : ∀ h ∈ hashes, W (Db.eraseBlock h)) :
    (deleteOrphans hashes).Uses W := by
  refine (Uses.read hid).bind fun s => (Uses.collect fun h hh => ?_).bind fun _ => ?_
  · have hmem : h ∈ hashes := by
      obtain ⟨e, he, rfl⟩ := List.mem_map.1 hh
      have hcond := (List.mem_filter.1 he).2
      simp only [Bool.and_eq_true, List.contains_iff_mem] at hcond
      exact hcond.1
    exact (rewriteRow_uses hid (hw h hmem)).bind fun _ => Uses.ret
  · refine (Uses.forEach fun _ _ => ?_).bind fun _ => Uses.ret
    exact (Uses.read hid).bind fun _ => Uses.check

end

theorem commitFile_uses : (commitFile a).Uses (Call.Writes (.commit (.file a))) := by
  refine (forUpdate_uses .skip).bind fun v => ?_
  split
  · exact Uses.raise
  · refine Uses.bind ?_ fun _ => ?_
    · refine Uses.check.bind fun _ => Uses.check.bind fun _ => Uses.check.bind fun _ => ?_
      exact Uses.check
    · split
      · exact Uses.raise
      · refine (forUpdate_uses .skip).bind fun _ => (nextVersionNumber_uses .skip).bind fun _ => ?_
        refine (insertFileVersion_uses .skip (.fileVersion ..)).bind fun _ => ?_
        refine (upsertBlocks_uses .skip fun b hb => .fileBlock hb).bind fun _ => ?_
        refine (insertManifestBlocks_uses .skip (fun b hb => .fileManifest hb)
          fun b hb => .fileRef hb).bind fun _ => ?_
        refine Uses.bind ?_ fun _ => Uses.ret
        refine (Uses.read .skip).bind fun _ => Uses.ite (fun _ => ?_) fun _ => Uses.ret
        exact (rewriteRow_uses .skip .fileSession).bind fun _ => Uses.ret

theorem deleteVersion_uses : (Cas.deleteVersion v).Uses (Call.Writes (.deleteVersion v)) := by
  refine (Uses.read .skip).bind fun _ => Uses.ite (fun _ => ?_) fun _ => Uses.ret
  refine (rewriteRow_uses .skip (.eraseVersion v)).bind fun _ => ?_
  refine Uses.ite (fun _ => ?_) fun _ => Uses.ret
  refine (Uses.read .skip).bind fun _ => (Uses.collect fun i _ => ?_).bind fun _ =>
    Uses.forEach fun h _ => manifestBlockRemoved_uses .skip (.dropRef v h)
  exact (rewriteRow_uses .skip (.eraseManifest v i)).bind fun _ => Uses.ret

/-- **A call writes what `Writes` says.** -/
theorem Call.body_uses (c : Call) : c.body.Uses c.Writes := by
  cases c with
  | commit c =>
    refine Uses.bind ?_ fun _ => Uses.ret
    cases c with
    | file a => exact commitFile_uses.bind fun _ => Uses.ret
    | version a =>
      refine Uses.bind ?_ fun _ => Uses.ret
      refine (nextVersionNumber_uses .skip).bind fun n => ?_
      exact (insertFileVersion_uses .skip (.version n)).bind fun _ => Uses.ret
  | deleteVersion v => exact deleteVersion_uses.bind fun _ => Uses.ret
  | ensureBlock h t size now =>
    refine Uses.bind ?_ fun _ => Uses.ret
    refine (insertBlockRow_uses .skip (.ensure ..)).bind fun _ => ?_
    refine Uses.ite (fun _ => ?_) fun _ => Uses.ret
    exact (references_uses .skip).bind fun _ => Uses.ret
  | deleteBlocks hashes =>
    refine Uses.bind (Uses.ite (fun _ => Uses.ret) fun _ => ?_) fun _ => Uses.ret
    exact deleteOrphans_uses .skip fun h hh => .eraseBlock hh
  | gcDeleteUnreferenced batch =>
    refine Uses.bind ?_ fun _ => Uses.ret
    exact (deleteOrphans_uses .skip fun h hh => .sweepBlock hh).bind fun _ => Uses.ret
  | updateTier h =>
    refine Uses.bind ?_ fun _ => Uses.ret
    refine (Uses.read .skip).bind fun _ => Uses.ite (fun _ => ?_) fun _ => Uses.ret
    exact (rewriteRow_uses .skip (.retier h)).bind fun _ => Uses.ret

/-- A relation that admits each write of a call contains what the call does. -/
theorem Call.body_within_of_writes {c : Call} (hw : ∀ f, c.Writes f → ∀ d, R d (f d)) :
    c.body.Within R :=
  c.body_uses.within hw

end Aegis.Ingress
