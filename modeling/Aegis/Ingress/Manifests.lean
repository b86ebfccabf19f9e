import Aegis.Ingress.Quota

/-!
# Manifests

A file is put together from the rows of its version in `file_manifest_blocks`, in the order of
`chunk_index`. `CommitFile` inserts a row for each block of the request as the client has sent it:
the CHECKs of the table bound single values, its key keeps two blocks of one index apart, and
nothing relates a block to the one before it or all of them to the size of the session. So the rows
of a version are those blocks, the size of the version is that of the session, and the file can be
put together exactly if the blocks of the request tile the size that was declared.
-/

namespace Aegis.Db

/-- The rows of a version, in the order of `chunk_index`. -/
def manifestRows (d : Db) (v : Uuid) : List (Int × ManifestRow) :=
  ((d.manifestOf v).mergeSort (· ≤ ·)).filterMap fun k =>
    (d.manifest.lookup (v, k)).map fun r => (k, r)

end Aegis.Db

namespace Aegis.Ingress

/-- The row of a block. -/
def BlockMeta.row (b : BlockMeta) : ManifestRow := ⟨b.blockHash, b.offset, b.sizeBytes⟩

/-- The rows of blocks, in the order of their indices. -/
def rowsOf (blocks : List BlockMeta) : List (Int × ManifestRow) :=
  (blocks.mergeSort fun b b' => b.chunkIndex ≤ b'.chunkIndex).map fun b => (b.chunkIndex, b.row)

/-- The rows have the indices from `i` on, and each starts where the one before it ends, the first
at `offset`. -/
def Contiguous : Int → Int → List (Int × ManifestRow) → Prop
  | _, _, [] => True
  | i, offset, (k, r) :: rows =>
    k = i ∧ r.offsetBytes = offset ∧ Contiguous (i + 1) (offset + r.sizeBytes) rows

/-- A file of the size can be put together from the rows. -/
def Reassembles (rows : List (Int × ManifestRow)) (totalSize : Int) : Prop :=
  Contiguous 0 0 rows ∧ (rows.map fun r => r.2.sizeBytes).sum = totalSize

end Aegis.Ingress

namespace Aegis.Ingress.Handlers

open Db Stmt Txn Txn.Prog Txn.Footprint

/-! ## Rows and blocks -/

/-- The manifest with the rows of blocks. -/
def insertRows (v : Uuid) (blocks : List BlockMeta) (m : Table (Uuid × Int) ManifestRow) :
    Table (Uuid × Int) ManifestRow :=
  blocks.foldl (fun m b => m.insert (v, b.chunkIndex) b.row) m

theorem insertRows_concat (v : Uuid) (blocks : List BlockMeta) (b : BlockMeta)
    (m : Table (Uuid × Int) ManifestRow) :
    insertRows v (blocks ++ [b]) m = (insertRows v blocks m).insert (v, b.chunkIndex) b.row := by
  rw [insertRows, List.foldl_append]
  rfl

variable {v : Uuid} {blocks : List BlockMeta}

/-- The rows of another version are as they were. -/
theorem lookup_insertRows_of_ne (h : v' ≠ v) (blocks : List BlockMeta) (k : Int)
    (m : Table (Uuid × Int) ManifestRow) :
    (insertRows v blocks m).lookup (v', k) = m.lookup (v', k) := by
  induction blocks generalizing m with
  | nil => rfl
  | cons b blocks ih =>
    rw [insertRows, List.foldl_cons]
    refine (ih _).trans ?_
    rw [Table.lookup_insert_eq, if_neg fun heq => h (Prod.mk.inj heq).1]

/-- A block has its row. -/
theorem lookup_insertRows_of_mem (hnodup : (blocks.map BlockMeta.chunkIndex).Nodup)
    (hb : b ∈ blocks) (m : Table (Uuid × Int) ManifestRow) :
    (insertRows v blocks m).lookup (v, b.chunkIndex) = some b.row := by
  induction blocks using List.reverseRecOn with
  | nil => cases hb
  | append_singleton blocks b' ih =>
    rw [List.map_append, List.nodup_append] at hnodup
    rw [insertRows_concat, Table.lookup_insert_eq]
    split
    · next heq =>
      rcases List.mem_append.1 hb with hb | hb
      · have hindex : b.chunkIndex = b'.chunkIndex := (Prod.mk.inj heq).2
        exact absurd hindex (hnodup.2.2 _ (List.mem_map_of_mem hb) _ (List.mem_singleton_self _))
      · rw [List.mem_singleton.1 hb]
    · next hne =>
      rcases List.mem_append.1 hb with hb | hb
      · exact ih hnodup.1 hb
      · rw [List.mem_singleton.1 hb] at hne
        exact absurd rfl hne

/-- An index that no block has. -/
theorem lookup_insertRows_of_notMem (hk : k ∉ blocks.map BlockMeta.chunkIndex)
    (m : Table (Uuid × Int) ManifestRow) :
    (insertRows v blocks m).lookup (v, k) = m.lookup (v, k) := by
  induction blocks using List.reverseRecOn with
  | nil => rfl
  | append_singleton blocks b ih =>
    rw [List.map_append, List.mem_append, not_or] at hk
    rw [insertRows_concat, Table.lookup_insert_eq, if_neg, ih hk.1]
    exact fun heq => hk.2 (List.mem_singleton.2 (Prod.mk.inj heq).2)

/-- The rows of the version are those of the blocks, and no two blocks have one index. -/
structure Lists (v : Uuid) (blocks : List BlockMeta) (d : Db) : Prop where
  distinct : (blocks.map BlockMeta.chunkIndex).Nodup
  row : ∀ b ∈ blocks, d.manifest.lookup (v, b.chunkIndex) = some b.row
  only : ∀ k, (d.manifest.lookup (v, k)).isSome → k ∈ blocks.map BlockMeta.chunkIndex

/-- The indices of the rows are those of the blocks. -/
theorem Lists.perm (h : Lists v blocks d) :
    (d.manifestOf v).Perm (blocks.map BlockMeta.chunkIndex) := by
  have hnodup : (d.manifestOf v).Nodup := by
    refine (Table.nodup_keysWhere _ d.manifest).map_on ?_
    intro k hk k' hk' heq
    obtain ⟨_, _, hv⟩ := Table.mem_keysWhere.1 hk
    obtain ⟨_, _, hv'⟩ := Table.mem_keysWhere.1 hk'
    exact Prod.ext ((beq_iff_eq.1 hv).trans (beq_iff_eq.1 hv').symm) heq
  refine (List.perm_ext_iff_of_nodup hnodup h.distinct).2 fun k => ⟨fun hk => ?_, fun hk => ?_⟩
  · obtain ⟨⟨v', k⟩, hkey, rfl⟩ := List.mem_map.1 hk
    obtain ⟨r, hr, hv⟩ := Table.mem_keysWhere.1 hkey
    obtain rfl : v' = v := beq_iff_eq.1 hv
    exact h.only k (by rw [hr, Option.isSome_some])
  · obtain ⟨b, hb, rfl⟩ := List.mem_map.1 hk
    exact List.mem_map.2 ⟨(v, b.chunkIndex),
      Table.mem_keysWhere.2 ⟨b.row, h.row b hb, beq_self_eq_true v⟩, rfl⟩

/-- **The rows in order are the blocks in order.** -/
theorem Lists.manifestRows_eq (h : Lists v blocks d) : d.manifestRows v = rowsOf blocks := by
  have hsorted : ∀ l : List Int, (l.mergeSort (· ≤ ·)).Pairwise (· ≤ ·) := by
    intro l
    refine (List.pairwise_mergeSort ?_ ?_ l).imp fun hle => of_decide_eq_true hle
    · intro i j k hij hjk
      exact decide_eq_true ((of_decide_eq_true hij).trans (of_decide_eq_true hjk))
    · intro i j
      rw [Bool.or_eq_true, decide_eq_true_eq, decide_eq_true_eq]
      exact le_total i j
  have hsort : (d.manifestOf v).mergeSort (· ≤ ·) =
      (blocks.map BlockMeta.chunkIndex).mergeSort (· ≤ ·) := by
    refine List.Perm.eq_of_pairwise (fun _ _ _ _ => le_antisymm) (hsorted _) (hsorted _) ?_
    exact (List.mergeSort_perm _ _).trans (h.perm.trans (List.mergeSort_perm _ _).symm)
  have hindices : (blocks.mergeSort fun b b' => b.chunkIndex ≤ b'.chunkIndex).map
      BlockMeta.chunkIndex = (blocks.map BlockMeta.chunkIndex).mergeSort (· ≤ ·) :=
    List.map_mergeSort fun _ _ _ _ => rfl
  rw [manifestRows, hsort, ← hindices, List.filterMap_map, rowsOf, ← List.filterMap_eq_map]
  refine List.filterMap_congr fun b hb => ?_
  rw [Function.comp_apply, h.row b ((List.mergeSort_perm _ _).mem_iff.1 hb), Option.map_some]
  rfl

/-! ## What a commit inserts -/

/-- The write leaves the manifest alone. -/
def OffManifest (f : Db → Db) : Prop := ∀ d, (f d).manifest = d.manifest

theorem offManifest_id : OffManifest id := fun _ => rfl

/-- `p` takes views where `A` holds to views where `B` holds, by its own writes. -/
abbrev Leaves {β : Type} (A : World Db Call Res → Db → Prop) (p : Stmt β)
    (B : World Db Call Res → Db → Prop) : Prop :=
  unprotected.Triple (fun _ => True) (fun _ => False) (fun _ w u => A w u) p fun _ _ w u => B w u

/-- What writes other tables leaves an assertion about the manifest true. -/
theorem leaves_offManifest {A : World Db Call Res → Table (Uuid × Int) ManifestRow → Prop}
    (hp : p.Uses OffManifest) : Leaves (fun w u => A w u.manifest) p fun w u => A w u.manifest := by
  refine Triple.uses hp (fun f _ ls => covered_unprotected ls f) (fun f hf {_ _ _ u} _ hu => ?_)
    fun _ => id
  show A _ (f u).manifest
  rw [hf u]
  exact hu

/-- The rows of some blocks have been inserted, each under an index that was free. -/
def Inserted (v : Uuid) (blocks : List BlockMeta) (m m' : Table (Uuid × Int) ManifestRow) : Prop :=
  (blocks.map BlockMeta.chunkIndex).Nodup ∧ m' = insertRows v blocks m

/-- One row more. -/
theorem insertManifestRow_leaves :
    Leaves (fun w u => Inserted v done w.db.manifest u.manifest) (insertManifestRow v b)
      fun w u => Inserted v (done ++ [b]) w.db.manifest u.manifest := by
  refine Triple.checked id fun _ => Triple.checked id fun _ => ?_
  refine Triple.checked id fun _ => Triple.checked id fun _ => ?_
  refine Triple.bind (M := fun s _ w u => (hasManifest v b.chunkIndex s = false →
      Inserted v (done ++ [b]) w.db.manifest u.manifest))
    (Triple.stmt (fun _ _ hl => .inr hl) (fun _ _ _ _ _ => covered_unprotected _ _) ?_) fun s => ?_
  · rintro held w s w' u - ⟨hnodup, hs⟩ - ⟨-, hu⟩ - - hfree
    have hnew : b.chunkIndex ∉ done.map BlockMeta.chunkIndex := by
      intro hmem
      obtain ⟨b', hb', hindex⟩ := List.mem_map.1 hmem
      rw [hasManifest, hs, ← hindex, lookup_insertRows_of_mem hnodup hb'] at hfree
      cases hfree
    refine ⟨?_, ?_⟩
    · rw [List.map_append, List.nodup_append]
      refine ⟨hnodup, List.nodup_singleton _, fun k hk k' hk' heq => hnew ?_⟩
      rw [List.mem_singleton.1 hk'] at heq
      exact heq ▸ hk
    · rw [insertRows_concat, ← hu]
      rfl
  · refine (Triple.guard id).post ?_
    rintro _ held w u - ⟨hfree, hu⟩
    exact hu (by simpa using hfree)

/-- All rows. -/
theorem insertManifestRows_leaves (done : List BlockMeta) :
    Leaves (fun w u => Inserted v done w.db.manifest u.manifest)
      (forEach blocks (insertManifestRow v))
      fun w u => Inserted v (done ++ blocks) w.db.manifest u.manifest := by
  induction blocks generalizing done with
  | nil =>
    refine Triple.ret fun _ w u _ hu => ?_
    rwa [List.append_nil]
  | cons b blocks ih =>
    refine insertManifestRow_leaves.bind fun _ => (ih _).post fun _ _ w u _ hu => ?_
    rwa [List.append_assoc, List.singleton_append] at hu

/-- Step 7 of `CommitFile`. -/
theorem insertManifestBlocks_leaves :
    Leaves (fun w u => u.manifest = w.db.manifest) (insertManifestBlocks v blocks)
      fun w u => Inserted v blocks w.db.manifest u.manifest := by
  refine Triple.bind (M := fun _ _ w u => Inserted v blocks w.db.manifest u.manifest) ?_ fun _ => ?_
  · exact (insertManifestRows_leaves []).pre fun _ w u _ hu => ⟨List.nodup_nil, hu⟩
  · refine leaves_offManifest (A := fun w m => Inserted v blocks w.db.manifest m) ?_
    refine Uses.forEach fun b _ => ?_
    refine (references_uses offManifest_id).bind fun _ => ?_
    refine (references_uses offManifest_id).bind fun _ => ?_
    exact manifestBlockAdded_uses offManifest_id fun _ => rfl

/-- `CommitFile` inserts the rows of its blocks. -/
theorem commitFile_leaves :
    Leaves (fun w u => u.manifest = w.db.manifest) (Ingress.commitFile a)
      fun w u => Inserted a.versionId a.blocks w.db.manifest u.manifest := by
  have hbefore : ∀ {β : Type} {p : Stmt β}, p.Uses OffManifest →
      Leaves (fun w u => u.manifest = w.db.manifest) p fun w u => u.manifest = w.db.manifest :=
    fun hp => leaves_offManifest (A := fun w m => m = w.db.manifest) hp
  refine Triple.bind (hbefore (forUpdate_uses offManifest_id)) fun s => ?_
  split
  · exact Triple.raise id
  · next session _ =>
    refine Triple.bind (hbefore ?_) fun _ => ?_
    · refine Uses.check.bind fun _ => Uses.check.bind fun _ => Uses.check.bind fun _ => ?_
      exact Uses.check
    split
    · exact Triple.raise id
    · refine Triple.bind (hbefore (forUpdate_uses offManifest_id)) fun _ => ?_
      refine Triple.bind (hbefore (nextVersionNumber_uses offManifest_id)) fun number => ?_
      refine Triple.bind (hbefore (insertFileVersion_uses offManifest_id fun _ => rfl)) fun _ => ?_
      refine Triple.bind (hbefore (upsertBlocks_uses offManifest_id fun _ _ _ => rfl)) fun _ => ?_
      refine Triple.bind insertManifestBlocks_leaves fun _ => ?_
      refine Triple.bind ?_ fun _ => Triple.ret fun _ _ _ _ hu => hu
      have hcomplete : OffManifest (completeSession a.sessionId a.blocks.length) := fun _ => rfl
      refine leaves_offManifest (A := fun w m => Inserted a.versionId a.blocks w.db.manifest m) ?_
      refine (Uses.read offManifest_id).bind fun _ => Uses.ite (fun _ => ?_) fun _ => Uses.ret
      exact (rewriteRow_uses offManifest_id hcomplete).bind fun _ => Uses.ret

/-- What a call has made of the manifest when it commits. -/
def Call.Fills (w : World Db Call Res) (u : Db) : Call → Prop
  | .commitFile a => Inserted a.versionId a.blocks w.db.manifest u.manifest
  | _ => u.manifest = w.db.manifest

/-- **Every call** makes of the manifest what `Fills` says. -/
theorem body_leaves (c : Call) :
    Leaves (fun w u => u.manifest = w.db.manifest) c.body fun w u => c.Fills w u := by
  have hother : (∀ f, c.Writes f → OffManifest f) →
      Leaves (fun w u => u.manifest = w.db.manifest) c.body fun w u => u.manifest = w.db.manifest :=
    fun h => leaves_offManifest (A := fun w m => m = w.db.manifest) (c.body_uses.mono h)
  cases c with
  | commitFile a => exact Triple.bind commitFile_leaves fun _ => Triple.ret fun _ _ _ _ hu => hu
  | createFileNode a =>
    refine hother fun f hf => ?_
    cases hf <;> exact fun _ => rfl
  | createUploadSession a =>
    refine hother fun f hf => ?_
    cases hf <;> exact fun _ => rfl
  | markBlockVerified h =>
    refine hother fun f hf => ?_
    cases hf <;> exact fun _ => rfl

/-! ## The invariant -/

/-- A commit on file: its rows, and its version with the size of its session. -/
structure Filed (a : CommitFile) (d : Db) : Prop where
  lists : Lists a.versionId a.blocks d
  size : ∃ session r, d.sessions.lookup a.sessionId = some session ∧
    d.versions.lookup a.versionId = some r ∧ r.totalSizeBytes = session.totalSize

/-- The invariant of the committed world: rows have a version, and all commits are on file. -/
structure Manifested (w : World Db Call Res) : Prop where
  accounted : Accounted w
  owned : ∀ v k, (w.db.manifest.lookup (v, k)).isSome → (w.db.versions.lookup v).isSome
  filed : ∀ c ∈ w.journal, ∀ a, c.call = .commitFile a → Filed a w.db

variable {u : Db} {c : Call} {w : World Db Call Res}

/-- Sessions and versions keep their sizes. -/
theorem Makes.size (h : Makes w u c)
    (hw : ∃ session r, w.db.sessions.lookup sid = some session ∧
      w.db.versions.lookup v = some r ∧ r.totalSizeBytes = session.totalSize) :
    ∃ session r, u.sessions.lookup sid = some session ∧
      u.versions.lookup v = some r ∧ r.totalSizeBytes = session.totalSize := by
  obtain ⟨session, r, hsession, hr, hsize⟩ := hw
  cases h with
  | createFileNode hrooted => exact ⟨session, r, by rw [hrooted.sessions, hsession],
      by rw [hrooted.versions, hr], hsize⟩
  | createUploadSession _ hversions _ hsessions =>
    refine ⟨session, r, ?_, by rw [hversions, hr], hsize⟩
    rw [hsessions, Table.lookup_insertNew, hsession]
    split <;> rfl
  | @commitFile a session' r' k _ _ hversions _ _ _ _ hsessions =>
    have hversion : u.versions.lookup v = some r := by
      rw [hversions, Table.lookup_insertNew, hr]
      split <;> rfl
    rw [completeSession] at hsessions
    rw [hsessions, Table.lookup_modify, hsession]
    split
    · exact ⟨_, r, rfl, hversion, hsize⟩
    · exact ⟨session, r, rfl, hversion, hsize⟩
  | markBlockVerified hclean => exact ⟨session, r, by rw [hclean.sessions, hsession],
      by rw [hclean.versions, hr], hsize⟩

theorem Makes.isSome_version (h : Makes w u c) (hv : (w.db.versions.lookup v).isSome) :
    (u.versions.lookup v).isSome := by
  cases h with
  | createFileNode hrooted => rwa [hrooted.versions]
  | createUploadSession _ hversions => rwa [hversions]
  | commitFile _ _ hversions =>
    rw [hversions, Table.lookup_insertNew]
    split
    · rfl
    · exact hv
  | markBlockVerified hclean => rwa [hclean.versions]

/-- The rows of a version that was there are as they were. -/
theorem Makes.lookup_manifest (h : Makes w u c) (hfills : c.Fills w u)
    (hv : (w.db.versions.lookup v).isSome) (k : Int) :
    u.manifest.lookup (v, k) = w.db.manifest.lookup (v, k) := by
  cases h with
  | @commitFile a session r n _ hfresh =>
    have hne : v ≠ a.versionId := by
      rintro rfl
      rw [hfresh] at hv
      cases hv
    rw [hfills.2, lookup_insertRows_of_ne hne]
  | createFileNode _ _ _ | createUploadSession _ _ _ _ | markBlockVerified _ => rw [hfills]

/-- The rows of the version that a commit adds are its blocks. -/
theorem lists_of_inserted (hw : Manifested w) (hfresh : w.db.versions.lookup v = none)
    (h : Inserted v blocks w.db.manifest u.manifest) : Lists v blocks u where
  distinct := h.1
  row b hb := by rw [h.2, lookup_insertRows_of_mem h.1 hb]
  only k hk := by
    by_contra hnot
    rw [h.2, lookup_insertRows_of_notMem hnot] at hk
    have hversion := hw.owned v k hk
    rw [hfresh] at hversion
    cases hversion

/-- The step of the induction over commits. -/
theorem Manifested.commit (hw : Manifested w) {i : Nat} {r : Res} {eff : Db → Db}
    (h : Makes w (eff w.db) c) (hfills : c.Fills w (eff w.db)) :
    Manifested (w.commit i c r eff) where
  accounted := hw.accounted.commit h
  owned v k hk := by
    have hold : (w.db.manifest.lookup (v, k)).isSome → ((eff w.db).versions.lookup v).isSome :=
      fun hk => h.isSome_version (hw.owned v k hk)
    replace hk : ((eff w.db).manifest.lookup (v, k)).isSome := hk
    cases h with
    | @commitFile a _ _ _ _ _ hversions =>
      by_cases hv : v = a.versionId
      · show ((eff w.db).versions.lookup v).isSome
        rw [hversions, Table.lookup_insertNew, if_pos hv]
        rfl
      · rw [hfills.2, lookup_insertRows_of_ne hv] at hk
        exact hold hk
    | createFileNode _ _ _ | createUploadSession _ _ _ _ | markBlockVerified _ =>
      rw [hfills] at hk
      exact hold hk
  filed e he a hcall := by
    rcases List.mem_append.1 he with he | he
    · obtain ⟨hlists, hsize⟩ := hw.filed e he a hcall
      have hv : (w.db.versions.lookup a.versionId).isSome := by
        obtain ⟨_, row, _, hrow, _⟩ := hsize
        rw [hrow, Option.isSome_some]
      refine ⟨⟨hlists.distinct, fun b hb => ?_, fun k hk => ?_⟩, h.size hsize⟩
      · exact (h.lookup_manifest hfills hv _).trans (hlists.row b hb)
      · exact hlists.only k ((h.lookup_manifest hfills hv k) ▸ hk)
    · obtain rfl := List.mem_singleton.1 he
      cases hcall
      cases h with
      | @commitFile _ session row n _ hfresh hversions hsession _ _ hsize hsessions =>
        refine ⟨lists_of_inserted hw hfresh hfills,
          { session with status := .completed, chunksReceived := n }, row, ?_, ?_, hsize⟩
        · show (eff w.db).sessions.lookup a.sessionId = _
          rw [hsessions, completeSession, Table.lookup_modify, if_pos rfl, hsession,
            Option.map_some]
        · show (eff w.db).versions.lookup a.versionId = _
          rw [hversions, Table.lookup_insertNew, if_pos rfl, hfresh, Option.getD_none]

/-! ## Runs -/

/-- The protocol of the pool. -/
abbrev manifesting : Protocol Db DbLock Err Call Res :=
  rowLocks.protocol Manifested fun _ => False

/-- **Every call is verified**: what it makes of nodes, sessions and versions under its locks, and
what it makes of the manifest by its own writes. -/
theorem body_manifests (c : Call) (w : World Db Call Res) (hw : Manifested w) :
    manifesting.wp c.body (manifesting.Commits c) [] id w := by
  have hclean : rowLocks.Keeps Accounted (fun _ : Err => False) (fun _ w u => Clean w u) [] id w :=
    ⟨hw.accounted, Covered.id _, fun _ _ => ⟨rfl, rfl, rfl⟩⟩
  have hsame : unprotected.Keeps (fun _ => True) (fun _ : Err => False)
      (fun _ w u => u.manifest = w.db.manifest) ([] : List DbLock) id w :=
    ⟨trivial, covered_unprotected _ _, fun _ _ => rfl⟩
  have hmakes : manifesting.wp c.body _ [] id w :=
    Protocol.wp_less (body_leads c hclean) (fun _ => id) (fun _ => id) fun henv =>
      ⟨henv.1.accounted, henv.2⟩
  have hfills : manifesting.wp c.body _ [] id w :=
    Protocol.wp_less (body_leaves c hsame) (fun _ => id) (fun _ => id) fun _ =>
      ⟨trivial, fun _ _ => trivial⟩
  have hboth := Protocol.wp_and hmakes hfills
  refine Protocol.wp_mono hboth ?_
  rintro r held eff w₁ ⟨hkmakes, hkfills⟩ w₂ hw₂ i
  have hm := hkmakes.holds w₂ ⟨hw₂.1.accounted, hw₂.2⟩
  have hf := hkfills.holds w₂ ⟨trivial, fun _ _ => trivial⟩
  exact ⟨hw₂.1.commit hm hf, fun l hl => hkmakes.covered.frame l _ hl⟩

variable {srv : Server} {s s' : State}

theorem manifesting_init (tenants : Table Uuid TenantRow) (nodes : Table Uuid NodeRow) :
    manifesting.Good (Sys.init (Db.seed tenants nodes ∅)) := by
  refine Protocol.Good.init ⟨⟨fun _ => rfl, fun _ => rfl, nofun, nofun⟩, ?_, nofun⟩
  intro v k hk
  cases hk

/-- One action keeps the pool good. -/
theorem manifesting_step (hs : manifesting.Good s.pool) (hstep : s.step srv a = some s') :
    manifesting.Good s'.pool := by
  rcases (does_of_step hstep).pool_eq with hsame | ⟨pa, hpa⟩
  · exact hsame ▸ hs
  · exact hs.does (fun c _ => body_manifests c) (.inl fun _ => id) hpa

/-- Every run keeps the pool good. -/
theorem manifesting_run {tenants : Table Uuid TenantRow} {nodes : Table Uuid NodeRow}
    (hrun : (State.init (Db.seed tenants nodes ∅)).run srv acts = some s) :
    manifesting.Good s.pool :=
  Run.invariant (I := fun s => manifesting.Good s.pool) manifesting_step
    (manifesting_init tenants nodes) hrun

/-- Every `CommitFile` that has committed is on file. -/
theorem filed_of_run {tenants : Table Uuid TenantRow} {nodes : Table Uuid NodeRow}
    (hrun : (State.init (Db.seed tenants nodes ∅)).run srv acts = some s) {c : Commit Db Call Res}
    (hc : c ∈ s.pool.world.journal) {a : CommitFile} (hcall : c.call = .commitFile a) :
    Filed a s.db := by
  have hgood := manifesting_run hrun
  exact hgood.inv.filed c hc a hcall

/-- **A file can be put together exactly if the blocks of its commit tile the size of the session**:
in every run, for every `CommitFile` that has committed. -/
theorem reassembles_iff {tenants : Table Uuid TenantRow} {nodes : Table Uuid NodeRow}
    {acts : List Act} (hrun : (State.init (Db.seed tenants nodes ∅)).run srv acts = some s)
    {c : Commit Db Call Res} (hc : c ∈ s.pool.world.journal) {a : CommitFile}
    (hcall : c.call = .commitFile a) :
    ∃ session r, s.db.sessions.lookup a.sessionId = some session ∧
      s.db.versions.lookup a.versionId = some r ∧
      (Reassembles (s.db.manifestRows a.versionId) r.totalSizeBytes ↔
        Reassembles (rowsOf a.blocks) session.totalSize) := by
  obtain ⟨hlists, session, r, hsession, hr, hsize⟩ := filed_of_run hrun hc hcall
  refine ⟨session, r, hsession, hr, ?_⟩
  rw [hlists.manifestRows_eq, hsize]

/-- The commit of session 3 with one block as the client describes it. -/
def commitAs (index offset size : Int) : CommitRequest :=
  { commitSix 3 with blocks := [⟨hexText 64 7, index, offset, size, []⟩] }

/-- Six bytes are declared and committed as one block. -/
def uploadAs (index offset size : Int) : List Act :=
  openSix 0 5 3 ++ .receive (.commit 0 (commitAs index offset size)) ::
    List.replicate 2 (call 1 5) ++ List.replicate 15 (.exec 1) ++
    .commit 1 :: List.replicate 2 (call 1 5)

/-- The second commit is `CommitFile` for session 3 with that block, and the session has six
bytes. -/
def commitsAs (index offset size : Int) (s : State) : Bool :=
  ((s.db.sessions.lookup 3).any fun session => session.totalSize == 6) &&
    (s.pool.world.journal[1]?).any fun c =>
      match c.call with
      | .commitFile a => a.sessionId == 3 &&
        a.blocks.map (fun b => (b.chunkIndex, b.offset, b.sizeBytes)) == [(index, offset, size)]
      | _ => false

theorem of_commitsAs (h : commitsAs index offset size s = true) :
    ∃ c ∈ s.pool.world.journal, ∃ a, c.call = .commitFile a ∧
      (∀ session, s.db.sessions.lookup a.sessionId = some session → session.totalSize = 6) ∧
      ∃ hash, a.blocks = [⟨hash, index, offset, size⟩] := by
  obtain ⟨htotal, hcommit⟩ := Bool.and_eq_true_iff.1 h
  cases hi : s.pool.world.journal[1]? with
  | none =>
    rw [hi] at hcommit
    cases hcommit
  | some c =>
    rw [hi, Option.any_some] at hcommit
    split at hcommit
    · next a hcall =>
      obtain ⟨hsid, hblocks⟩ := Bool.and_eq_true_iff.1 hcommit
      obtain ⟨⟨hash, _, _, _⟩, hb, heq⟩ := List.map_eq_singleton_iff.1 (beq_iff_eq.1 hblocks)
      cases heq
      refine ⟨c, List.mem_of_getElem? hi, a, hcall, fun session hsession => ?_, hash, hb⟩
      rw [beq_iff_eq.1 hsid] at hsession
      rw [hsession, Option.any_some] at htotal
      exact beq_iff_eq.1 htotal
    · cases hcommit

/-- One block at the start of the file. -/
theorem reassembles_iff_six :
    ∃ s c a r, (State.init (Db.seed quotaTen fileTwo ∅)).run plainServer (uploadAs 0 0 6) = some s ∧
      c ∈ s.pool.world.journal ∧ c.call = .commitFile a ∧
      s.db.versions.lookup a.versionId = some r ∧
      Reassembles (s.db.manifestRows a.versionId) r.totalSizeBytes := by
  have hrun : ((State.init (Db.seed quotaTen fileTwo ∅)).run plainServer (uploadAs 0 0 6)).map
      (commitsAs 0 0 6) = some true := by
    decide +kernel
  obtain ⟨s, hs, hcommits⟩ := Option.map_eq_some_iff.1 hrun
  obtain ⟨c, hc, a, hcall, htotal, hash, hblocks⟩ := of_commitsAs hcommits
  obtain ⟨session, r, hsession, hr, hiff⟩ := reassembles_iff hs hc hcall
  refine ⟨s, c, a, r, hs, hc, hcall, hr, hiff.2 ?_⟩
  rw [hblocks, htotal session hsession, rowsOf, List.mergeSort_singleton]
  exact ⟨⟨rfl, rfl, trivial⟩, rfl⟩

/-- **A block that leaves gaps is committed**: one byte at offset 3, as the sixth chunk of a file of
six bytes. -/
theorem gapped_manifest_committed :
    ∃ s c a r, (State.init (Db.seed quotaTen fileTwo ∅)).run plainServer (uploadAs 5 3 1) = some s ∧
      c ∈ s.pool.world.journal ∧ c.call = .commitFile a ∧
      s.db.versions.lookup a.versionId = some r ∧
      ¬ Reassembles (s.db.manifestRows a.versionId) r.totalSizeBytes := by
  have hrun : ((State.init (Db.seed quotaTen fileTwo ∅)).run plainServer (uploadAs 5 3 1)).map
      (commitsAs 5 3 1) = some true := by
    decide +kernel
  obtain ⟨s, hs, hcommits⟩ := Option.map_eq_some_iff.1 hrun
  obtain ⟨c, hc, a, hcall, -, hash, hblocks⟩ := of_commitsAs hcommits
  obtain ⟨hlists, session, r, -, hr, -⟩ := filed_of_run hs hc hcall
  refine ⟨s, c, a, r, hs, hc, hcall, hr, ?_⟩
  rw [hlists.manifestRows_eq, hblocks, rowsOf, List.mergeSort_singleton]
  rintro ⟨⟨hindex, -⟩, -⟩
  cases hindex

end Aegis.Ingress.Handlers
