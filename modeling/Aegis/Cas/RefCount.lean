import Aegis.Ingress.Store

/-!
# Reference counts

The reference count of a block against the manifest rows that name it, in every state that
concurrent commits, version deletions, `EnsureBlock` calls and collections can reach. The
invariant (`Counted`) says how far the count is ahead of the rows: by a slack that a predicate
bounds, and inside a transaction by the triggers that are still to fire for rows it has already
inserted or deleted. A row of `cas_blocks` is protected by its lock, and so is a manifest row;
nothing else is relied on.
-/

namespace Aegis.Cas

open Db Stmt Ingress Txn Txn.Footprint

/-! ## The invariant -/

/-- How the count of a block (`none` if it has no row) stands to the rows that name it: ahead by
`pend` triggers still to fire and by a slack that satisfies `P`. A hash without a row is named by
no row but those whose triggers are still to fire. -/
def Balanced (P : Nat → Prop) (pend : Int) : Option Int → Nat → Prop
  | none, rows => rows + pend = 0
  | some count, rows => ∃ slack, P slack ∧ count = rows + pend + slack

/-- Every block is balanced, with `pend h` triggers for `h` still to fire. -/
def Counted (P : Nat → Prop) (pend : Hash → Int) (d : Db) : Prop :=
  ∀ h, Balanced P (pend h) (d.refCount? h) (d.manifestCount h)

/-- One for a hash, zero for the others. -/
def one (h : Hash) : Hash → Int := fun h' => if h' = h then 1 else 0

/-- How often each hash occurs in a list. -/
def owed (l : List Hash) : Hash → Int := fun h => l.count h

theorem owed_nil : owed [] = 0 := rfl

theorem owed_cons (h : Hash) (l : List Hash) : owed (h :: l) = one h + owed l := by
  funext h'
  simp only [owed, one, Pi.add_apply, List.count_cons, beq_iff_eq, eq_comm (a := h)]
  split <;> push_cast <;> ring

theorem owed_append (l l' : List Hash) : owed (l ++ l') = owed l + owed l' := by
  funext h
  simp [owed]

variable {i : Int} {v : Uuid}

section Changes

variable {P : Nat → Prop} {pend : Hash → Int} {d : Db} {h : Hash}

/-- Rows and pending triggers may be traded for each other. -/
theorem Balanced.trade {rows rows' : Nat} (hb : Balanced P a ref rows)
    (hsum : rows' + b = rows + a) : Balanced P b ref rows' := by
  cases ref with
  | none => exact hsum.trans hb
  | some c =>
    obtain ⟨slack, hs, hc⟩ := hb
    exact ⟨slack, hs, by omega⟩

variable {c : Int}

/-- A trigger that fires moves from the pending ones to the count. -/
theorem Balanced.fire (hb : Balanced P a (some c) rows) (hab : b = a + n) :
    Balanced P b (some (c + n)) rows := by
  obtain ⟨slack, hs, hc⟩ := hb
  exact ⟨slack, hs, by omega⟩

theorem Counted.insertBlock {r : BlockRow} (hc : Counted P pend d) (hnone : d.refCount? h = none)
    (hs : P slack) (hr : r.refCount = slack) : Counted P pend (d.insertBlock h r) := by
  intro h'
  rw [refCount?_insertBlock, manifestCount_insertBlock]
  split
  · next heq =>
    subst heq
    have h0 := hc h'
    rw [hnone] at h0
    exact ⟨slack, hs, by rw [hr, h0, zero_add]⟩
  · exact hc h'

theorem Counted.addRef (hc : Counted P pend d) (hsome : d.refCount? h = some c) :
    Counted P (pend + one h) (d.addRef h) := by
  intro h'
  rw [refCount?_addRef, manifestCount_addRef]
  split
  · next heq =>
    subst heq
    have h0 := hc h'
    rw [hsome] at h0 ⊢
    exact h0.fire (by simp [one])
  · next hne => simpa [one, hne] using hc h'

theorem Counted.dropRef (hc : Counted P (pend + one h) d) (hsome : d.refCount? h = some c) :
    Counted P pend (d.dropRef h) := by
  intro h'
  rw [refCount?_dropRef, manifestCount_dropRef]
  split
  · next heq =>
    subst heq
    have h0 := hc h'
    rw [hsome] at h0 ⊢
    exact h0.fire (by simp [one])
  · next hne => simpa [one, hne] using hc h'

theorem Counted.insertManifest (hc : Counted P (pend + one r.blockHash) d)
    (hnone : d.manifest.lookup (v, i) = none) : Counted P pend (d.insertManifest v i r) := by
  intro h'
  rw [refCount?_insertManifest, manifestCount_insertManifest h' hnone]
  refine (hc h').trade ?_
  simp only [Pi.add_apply, one, eq_comm (a := h')]
  split <;> push_cast <;> ring

theorem Counted.eraseManifest (hc : Counted P pend d) (hsome : d.manifest.lookup (v, i) = some r) :
    Counted P (pend + one r.blockHash) (d.eraseManifest v i) := by
  intro h'
  rw [refCount?_eraseManifest]
  refine (hc h').trade ?_
  rw [manifestCount_eraseManifest h' hsome]
  simp only [Pi.add_apply, one, eq_comm (a := h')]
  split <;> push_cast <;> ring

/-- With no trigger still to fire, a hash without a block row is named by no row. -/
theorem Counted.manifestCount_of_absent (hc : Counted P 0 d) (ha : d.refCount? h = none) :
    d.manifestCount h = 0 := by
  have h0 := hc h
  rw [ha] at h0
  have h0 : (d.manifestCount h : Int) + 0 = 0 := h0
  omega

theorem Counted.eraseBlock (hc : Counted P 0 d) (ho : d.refCount? h = some 0) :
    Counted P 0 (d.eraseBlock h) := by
  intro h'
  rw [refCount?_eraseBlock, manifestCount_eraseBlock]
  split
  · next heq =>
    subst heq
    -- with no trigger still to fire, a block whose count is 0 is named by no row
    have h0 := hc h'
    rw [ho] at h0
    obtain ⟨slack, -, hr⟩ := h0
    simp only [Pi.zero_apply] at hr
    simp [Balanced, show d.manifestCount h' = 0 by omega]
  · exact hc h'

theorem Counted.retier (hc : Counted P pend d) : Counted P pend (d.retier h) := by
  intro h'
  rw [refCount?_retier, manifestCount_retier]
  exact hc h'

/-- A hash for which triggers are to take references off has a row that counts them. -/
theorem Counted.le_refCount (hc : Counted P pend d) (hp : 0 < pend h) :
    ∃ c, d.refCount? h = some c ∧ pend h ≤ c := by
  have h0 := hc h
  cases hb : d.refCount? h with
  | none =>
    rw [hb] at h0
    have h0 : (d.manifestCount h : Int) + pend h = 0 := h0
    omega
  | some c =>
    rw [hb] at h0
    obtain ⟨slack, -, hr⟩ := h0
    exact ⟨c, rfl, by omega⟩

end Changes

/-! ## What the locks protect -/

/-- The lock of a block protects its row, the lock of a manifest row protects that row. -/
def Agree : DbLock → Db → Db → Prop
  | .row (.block h) m, d, d' => m.writes = true → d.blocks.lookup h = d'.blocks.lookup h
  | .row (.manifest v i) m, d, d' =>
    m.writes = true → d.manifest.lookup (v, i) = d'.manifest.lookup (v, i)
  | _, _, _ => True

/-- The footprint of the row locks on blocks and manifest rows. -/
def footprint : Footprint Db DbLock where
  Agree := Agree
  Mark := fun _ => False
  refl := by
    intro l d
    unfold Agree
    split <;> simp
  trans := by
    intro l a b c hab hbc
    unfold Agree at *
    split <;> simp_all

variable {f : Db → Db} {m : LockMode}

/-- A change to the row of one block is covered by a writer's lock on it. -/
theorem covered_block {h : Hash} (hm : m.writes = true) (g : Option BlockRow → Option BlockRow)
    (hf : ∀ d h', (f d).blocks.lookup h' = if h' = h then g (d.blocks.lookup h') else
      d.blocks.lookup h') (hman : ∀ d, (f d).manifest = d.manifest) :
    footprint.Covered [.row (.block h) m] f where
  loc := by
    intro l d d' _ hl
    simp only [footprint, Agree] at hl ⊢
    split
    · next h' m' =>
      intro hm'
      rw [hf, hf, hl hm']
    · intro hm'
      rw [hman, hman]
      exact hl hm'
    · trivial
  frame := by
    intro l d hl
    simp only [footprint, Agree]
    split
    · next h' m' =>
      intro hm'
      have hne := DbLock.ne_of_compatible hl hm hm' (List.mem_singleton_self _)
      rw [hf, if_neg (by simpa using hne)]
    · intro _
      rw [hman]
    · trivial

/-- A change to one manifest row is covered by a writer's lock on it. -/
theorem covered_manifest (hm : m.writes = true) (g : Option ManifestRow → Option ManifestRow)
    (hf : ∀ d k, (f d).manifest.lookup k = if k = (v, i) then g (d.manifest.lookup k) else
      d.manifest.lookup k) (hblk : ∀ d, (f d).blocks = d.blocks) :
    footprint.Covered [.row (.manifest v i) m] f where
  loc := by
    intro l d d' _ hl
    simp only [footprint, Agree] at hl ⊢
    split
    · intro hm'
      rw [hblk, hblk]
      exact hl hm'
    · intro hm'
      rw [hf, hf, hl hm']
    · trivial
  frame := by
    intro l d hl
    simp only [footprint, Agree]
    split
    · intro _
      rw [hblk]
    · next v' i' m' =>
      intro hm'
      have hne := DbLock.ne_of_compatible hl hm hm' (List.mem_singleton_self _)
      rw [hf, if_neg (by simpa using hne)]
    · trivial

/-- A change to other tables needs no lock. -/
theorem covered_elsewhere (ls : List DbLock) (hblk : ∀ d, (f d).blocks = d.blocks)
    (hman : ∀ d, (f d).manifest = d.manifest) : footprint.Covered ls f where
  loc := by
    intro l d d' _ hl
    simp only [footprint, Agree] at hl ⊢
    split <;> simp_all
  frame := by
    intro l d _
    simp only [footprint, Agree]
    split <;> simp_all

/-! ## What is verified of a statement -/

/-- The errors that no transaction ever raises. -/
def Unreachable : Err → Prop
  | .casRowMissingOnDelete _ => True
  | .checkViolation .casBlocksRefCountCheck => True
  | .restrictViolation .fileManifestBlocksBlockHashFkey => True
  | _ => False

/-- `p` takes views that satisfy `A` to views that satisfy `B`, whatever transactions that keep the
counts do meanwhile, and raises nothing unreachable. -/
abbrev Spec {β : Type} (P : Nat → Prop) (A : Db → Prop) (p : Stmt β) (B : β → Db → Prop) : Prop :=
  footprint.Triple (fun w : World Db (List Call) (List Res) => Counted P 0 w.db) Unreachable
    (fun _ _ u => A u) p fun b _ _ u => B b u

variable {P : Nat → Prop} {pend : Hash → Int} {h : Hash} {A : Db → Prop}

/-! The rules of triples for assertions about the view alone. -/

variable {α β : Type} {k : RowKey} {present : Db → Bool}

theorem Spec.pre (hp : Spec P A p B) (hA : ∀ u, A' u → A u) : Spec P A' p B :=
  Triple.pre hp fun _ _ u _ hu => hA u hu

theorem Spec.post (hp : Spec P A p B) (hB : ∀ b u, B b u → B' b u) : Spec P A p B' :=
  Triple.post hp fun b _ _ u _ hu => hB b u hu

theorem bind_spec {f : α → Stmt β} (hp : Spec P A p M) (hf : ∀ a, Spec P (M a) (f a) B) :
    Spec P A (p.bind f) B :=
  Triple.bind hp hf

theorem assume_spec {p : Stmt β} {B : β → Db → Prop} {F : Prop} (hA : ∀ u, A u → F)
    (hp : F → Spec P A p B) : Spec P A p B :=
  Triple.assume (fun _ _ u _ hu => hA u hu) hp

theorem ret_spec : Spec P A (Prog.ret b) fun _ => A :=
  Triple.ret fun _ _ _ _ hu => hu

theorem forEach_spec {f : α → Stmt Unit} {I : List α → Db → Prop}
    (hround : ∀ a l, Spec P (I (a :: l)) (f a) fun _ => I l) (l : List α) :
    Spec P (I l) (Prog.forEach l f) fun _ => I [] :=
  Triple.forEach (I := fun l _ _ u => I l u) hround l

theorem collect_spec {f : α → Stmt (Option β)} {I : List α → List β → Db → Prop}
    (hround : ∀ a l bs, Spec P (I (a :: l) bs) (f a) fun o => I l (bs ++ o.toList)) (l : List α) :
    Spec P (I l []) (Prog.collect l f) fun bs => I [] bs :=
  Triple.collect (I := fun l bs _ _ u => I l bs u) hround l

theorem stmt_spec (hwaits : ∀ v, takes v ⊆ waits v)
    (hcov : ∀ v, footprint.Covered (takes v) (write v))
    (hB : ∀ v u, A v → A u → (∀ l ∈ takes v, Agree l v u) → B v (write v u)) :
    Spec P A (Prog.stmt waits takes write) B :=
  Triple.stmt (fun v _ hl => .inr (hwaits v hl))
    (fun _ _ v _ _ => (hcov v).mono (List.subset_append_left _ _))
    fun _ _ v _ u _ hv _ hu _ hview => hB v u hv hu fun l hl => hview l (List.mem_append_left _ hl)

/-- What is read satisfies the assertion, and so does the view afterwards. -/
theorem read_spec : Spec P A Prog.read fun v u => A v ∧ A u :=
  Triple.read fun _ _ _ _ _ _ hv _ hu _ _ => ⟨hv, hu⟩

/-- A check that may fail. -/
theorem check_spec (he : ¬ Unreachable e) : Spec P A (Prog.check c e) fun _ u => c = true ∧ A u :=
  Triple.guard he

/-- A check that cannot fail. -/
theorem check_pass_spec (hc : c = true) : Spec P A (Prog.check c e) fun _ => A := by
  subst hc
  exact ret_spec

/-- Locking a row to read it changes nothing. -/
theorem forUpdate_spec : Spec P A (forUpdate k present) fun _ => A :=
  forUpdate_triple fun _ _ _ _ _ _ _ _ _ hu _ _ _ _ => hu

theorem rewriteRow_spec (hcov : footprint.Covered [.row k m] write)
    (hpres : ∀ v, matching v = true → present v = true)
    (hB : ∀ v u, A v → A u → (present v = true → Agree (.row k m) v u) →
      B v (if matching v then write u else u)) :
    Spec P A (rewriteRow k m present matching write) B :=
  rewriteRow_triple hcov hpres fun _ _ _ v _ u _ hv _ hu _ hmem _ hview =>
    hB v u hv hu fun hp => hview _ (hmem hp)

/-- A foreign-key check changes nothing. -/
theorem references_spec (hc : ¬ Unreachable (.foreignKeyViolation c)) :
    Spec P A (references k present c) fun _ => A :=
  references_triple hc fun _ _ _ _ _ _ _ _ _ hu _ _ => hu

/-! ## Verified statements and triggers -/

theorem insertBlockRow_spec {r : BlockRow} (hs : P slack) (hr : r.refCount = slack) :
    Spec P (Counted P pend) (insertBlockRow h r) fun _ => Counted P pend := by
  refine Triple.checked id fun _ => Triple.checked id fun _ => ?_
  refine bind_spec (M := fun _ => Counted P pend) (stmt_spec ?_ ?_ ?_) fun v => ret_spec
  · intro v
    split <;> simp_all
  · intro v
    split
    · exact Covered.id _
    · exact covered_block rfl (fun _ => some r) (fun d h' => Table.lookup_insert_eq h h' r d.blocks)
        fun _ => rfl
  · rintro v u - hu hview
    split
    · exact hu
    · next hb =>
      have hnone : v.blocks.lookup h = none := by simpa [hasBlock] using hb
      have hagree := hview (.row (.block h) .update) (by simp [hb]) rfl
      refine hu.insertBlock ?_ hs hr
      rw [refCount?, ← hagree, hnone, Option.map_none]

theorem manifestBlockAdded_spec :
    Spec P (Counted P pend) (manifestBlockAdded h) fun _ => Counted P (pend + one h) := by
  refine bind_spec read_spec fun s => Triple.checked id fun _ => ?_
  refine bind_spec (M := fun v u => hasBlock h v = true → Counted P (pend + one h) u)
    (rewriteRow_spec ?_ (fun _ hv => hv) ?_) fun v => ?_
  · exact covered_block rfl (Option.map _) (fun d h' => Table.lookup_modify h h' _ d.blocks)
      fun _ => rfl
  · rintro v u - ⟨-, hu⟩ hagree hb
    obtain ⟨c, hc⟩ := (hasBlock_iff v h).1 hb
    have hsame : v.blocks.lookup h = u.blocks.lookup h := hagree hb rfl
    rw [if_pos hb]
    exact hu.addRef (c := c) (by rw [← hc, refCount?, refCount?, hsame])
  exact Triple.checked id fun hb => Spec.post (check_spec id) fun _ u hu => hu.2 hb

/-- The trigger of a deleted manifest row finds the row of its block, and a count to take one
from. -/
theorem manifestBlockRemoved_spec (hp : 0 ≤ pend h) :
    Spec P (Counted P (pend + one h)) (manifestBlockRemoved h) fun _ => Counted P pend := by
  have hpos : 0 < (pend + one h) h := by
    simp only [Pi.add_apply, one, if_true]
    omega
  have hrow : ∀ {u}, Counted P (pend + one h) u → ∃ c, u.refCount? h = some c ∧ 1 ≤ c := by
    intro u hu
    obtain ⟨c, hc, hle⟩ := hu.le_refCount hpos
    exact ⟨c, hc, by omega⟩
  refine bind_spec read_spec fun s => assume_spec (fun _ hu => hrow hu.1) ?_
  rintro ⟨c, hc, -⟩
  refine bind_spec (check_pass_spec ((hasBlock_iff s h).2 ⟨c, hc⟩)) fun _ => ?_
  refine bind_spec (M := fun v u => (∃ c, v.refCount? h = some c ∧ 1 ≤ c) ∧ Counted P pend u)
    (rewriteRow_spec ?_ (fun _ hv => hv) ?_) fun v => assume_spec (fun _ hu => hu.1) fun hv => ?_
  · exact covered_block rfl (Option.map _) (fun d h' => Table.lookup_modify h h' _ d.blocks)
      fun _ => rfl
  · rintro v u ⟨-, hv⟩ ⟨-, hu⟩ hagree
    obtain ⟨c, hc, hle⟩ := hrow hv
    have hb : hasBlock h v = true := (hasBlock_iff v h).2 ⟨c, hc⟩
    have hsame : v.blocks.lookup h = u.blocks.lookup h := hagree hb rfl
    rw [if_pos hb]
    exact ⟨⟨c, hc, hle⟩, hu.dropRef (c := c) (by rw [← hc, refCount?, refCount?, hsame])⟩
  obtain ⟨c, hc, hle⟩ := hv
  have hcount : 0 ≤ v.refCount h - 1 := by
    rw [refCount, hc, Option.getD_some]
    omega
  refine bind_spec (check_pass_spec ((hasBlock_iff v h).2 ⟨c, hc⟩)) fun _ => ?_
  exact Spec.post (check_pass_spec (decide_eq_true hcount)) fun _ _ hu => hu.2

theorem insertManifestRow_spec :
    Spec P (Counted P (pend + one b.blockHash)) (insertManifestRow v b)
      fun _ => Counted P pend := by
  refine Triple.checked id fun _ => Triple.checked id fun _ => ?_
  refine Triple.checked id fun _ => Triple.checked id fun _ => ?_
  refine bind_spec (M := fun s u => hasManifest v b.chunkIndex s = false → Counted P pend u)
    (stmt_spec (fun _ => List.Subset.refl _) ?_ ?_) fun s => Spec.post (check_spec id) ?_
  · intro s
    exact covered_manifest rfl (fun _ => some _)
      (fun d k => Table.lookup_insert_eq (v, b.chunkIndex) k _ d.manifest) fun _ => rfl
  · intro s u _ hu hview hnone
    have hsame := hview _ (List.mem_singleton_self _) rfl
    refine hu.insertManifest ?_
    rw [← hsame]
    simpa [hasManifest] using hnone
  · rintro - u ⟨hnone, hu⟩
    exact hu (by simpa using hnone)

theorem manifestRowTriggers_spec :
    Spec P (Counted P pend) (manifestRowTriggers v b)
      fun _ => Counted P (pend + one b.blockHash) := by
  refine bind_spec (references_spec id) fun _ => ?_
  exact bind_spec (references_spec id) fun _ => manifestBlockAdded_spec

/-- Inserting manifest rows: while rows go in the count falls behind, and their triggers make up
for it. -/
theorem insertManifestBlocks_spec {blocks : List BlockMeta} :
    Spec P (Counted P 0) (insertManifestBlocks v blocks) fun _ => Counted P 0 := by
  refine bind_spec (M := fun _ => Counted P (-owed (blocks.map BlockMeta.blockHash)))
    ?_ fun _ => ?_
  · -- the rows still to come have not been taken off yet
    have hround := forEach_spec (P := P) (f := insertManifestRow v) (I := fun l => Counted P
      (-owed (blocks.map BlockMeta.blockHash) + owed (l.map BlockMeta.blockHash))) (fun b l => ?_)
      blocks
    · refine Spec.post (Spec.pre hround ?_) ?_
      · intro u hu
        simpa using hu
      · intro _ u hu
        simpa [owed_nil] using hu
    · refine Spec.pre insertManifestRow_spec ?_
      intro u hu
      rwa [List.map_cons, owed_cons, add_comm (one _), ← add_assoc] at hu
  · refine Spec.post (forEach_spec (I := fun l => Counted P (-owed (l.map BlockMeta.blockHash)))
      (fun b l => ?_) blocks) ?_
    · refine Spec.post manifestRowTriggers_spec ?_
      intro _ u hu
      simpa [owed_cons] using hu
    · intro _ u hu
      simpa [owed_nil] using hu

theorem deleteManifestRow_spec :
    Spec P (Counted P pend) (deleteManifestRow v i)
      fun o => Counted P (pend + owed o.toList) := by
  refine bind_spec (M := fun d =>
      Counted P (pend + owed ((d.manifest.lookup (v, i)).map ManifestRow.blockHash).toList))
    (rewriteRow_spec ?_ (fun _ hv => hv) ?_) fun _ => Triple.ret fun _ _ _ _ hu => hu
  · exact covered_manifest rfl (fun _ => none)
      (fun d k => Table.lookup_erase_eq (v, i) k d.manifest)
      fun _ => rfl
  · intro d u _ hu hagree
    cases hd : d.manifest.lookup (v, i) with
    | none => simpa [hasManifest, hd, owed_nil] using hu
    | some r =>
      have hhas : hasManifest v i d = true := by rw [hasManifest, hd]; rfl
      have hsame : d.manifest.lookup (v, i) = u.manifest.lookup (v, i) := hagree hhas rfl
      have hone : owed [r.blockHash] = one r.blockHash := by rw [owed_cons, owed_nil, add_zero]
      rw [if_pos hhas, Option.map_some, Option.toList_some, hone]
      exact hu.eraseManifest (by rw [← hsame, hd])

/-- The cascade of a deleted version: while rows go out the count runs ahead, and their triggers
bring it back. -/
theorem deleteManifestOf_spec : Spec P (Counted P 0) (deleteManifestOf v) fun _ => Counted P 0 := by
  refine bind_spec read_spec fun s => ?_
  refine bind_spec (M := fun gone => Counted P (owed gone)) ?_ fun gone => ?_
  · refine Spec.pre (collect_spec (I := fun _ gone => Counted P (owed gone)) (fun i l gone => ?_) _)
      fun _ hu => hu.2
    refine Spec.post deleteManifestRow_spec ?_
    intro o u hu
    simpa only [owed_append] using hu
  · refine forEach_spec (I := fun l => Counted P (owed l)) (fun h l => ?_) gone
    have hnonneg : 0 ≤ owed l h := Int.natCast_nonneg _
    refine Spec.pre (manifestBlockRemoved_spec hnonneg) ?_
    intro u hu
    rwa [owed_cons, add_comm] at hu

theorem deleteVersion_spec : Spec P (Counted P 0) (deleteVersion v) fun _ => Counted P 0 := by
  refine bind_spec read_spec fun s => Spec.pre (A := Counted P 0) ?_ fun _ hu => hu.2
  refine Triple.ite (fun _ => ?_) fun _ => ret_spec
  refine bind_spec (M := fun _ => Counted P 0)
    (rewriteRow_spec (covered_elsewhere _ (fun _ => rfl) fun _ => rfl) (fun _ hv => hv) ?_)
    fun d => Triple.ite (fun _ => deleteManifestOf_spec) fun _ => ret_spec
  intro d u _ hu _
  split <;> exact hu

/-- Deleting a block row that the recheck finds orphaned. -/
theorem deleteOrphanRow_spec :
    Spec P (fun u => Counted P 0 u ∧ ∀ h' ∈ gone, u.refCount? h' = none) (deleteOrphanRow h)
      fun o u => Counted P 0 u ∧ ∀ h' ∈ gone ++ o.toList, u.refCount? h' = none := by
  refine bind_spec (M := fun d u => Counted P 0 u ∧
      ∀ h' ∈ gone ++ (if isOrphan h d then some h else none).toList, u.refCount? h' = none)
    (rewriteRow_spec ?_ ?_ ?_) fun _ => Triple.ret fun _ _ _ _ hu => hu
  · exact covered_block rfl (fun _ => none) (fun d h' => Table.lookup_erase_eq h h' d.blocks)
      fun _ => rfl
  · intro d hd
    exact (hasBlock_iff d h).2 ⟨0, by simpa [isOrphan] using hd⟩
  · rintro d u - ⟨hc, hgone⟩ hagree
    split
    · next ho =>
      have hzero : d.refCount? h = some 0 := by simpa [isOrphan] using ho
      have hsame := hagree ((hasBlock_iff d h).2 ⟨0, hzero⟩) rfl
      have hu0 : u.refCount? h = some 0 := by rw [← hzero, refCount?, refCount?, hsame]
      refine ⟨hc.eraseBlock hu0, ?_⟩
      intro h' hh'
      rw [refCount?_eraseBlock]
      split
      · rfl
      · next hne =>
        rcases List.mem_append.1 hh' with hh' | hh'
        · exact hgone h' hh'
        · exact absurd (List.mem_singleton.1 hh') hne
    · exact ⟨hc, by simpa using hgone⟩

/-- The check of `ON DELETE RESTRICT` finds no manifest row. -/
theorem restrictManifest_spec :
    Spec P (fun u => Counted P 0 u ∧ ∀ h' ∈ h :: l, u.refCount? h' = none) (restrictManifest h)
      fun _ u => Counted P 0 u ∧ ∀ h' ∈ l, u.refCount? h' = none := by
  refine bind_spec read_spec fun s => assume_spec (F := s.manifestCount h = 0) ?_ fun hs => ?_
  · rintro u ⟨⟨hc, hgone⟩, -⟩
    exact hc.manifestCount_of_absent (hgone h (List.mem_cons_self ..))
  · refine Spec.post (check_pass_spec (by simp [hs])) ?_
    rintro - u ⟨-, hc, hgone⟩
    exact ⟨hc, fun h' hh' => hgone h' (List.mem_cons_of_mem _ hh')⟩

theorem deleteOrphans_spec : Spec P (Counted P 0) (deleteOrphans hashes) fun _ => Counted P 0 := by
  refine bind_spec read_spec fun s => ?_
  refine bind_spec (M := fun gone u => Counted P 0 u ∧ ∀ h ∈ gone, u.refCount? h = none) ?_
    fun gone => ?_
  · refine Spec.pre (collect_spec (I := fun _ gone u => Counted P 0 u ∧
      ∀ h ∈ gone, u.refCount? h = none) (fun _ _ _ => deleteOrphanRow_spec) _) ?_
    rintro u ⟨-, hu⟩
    exact ⟨hu, by simp⟩
  refine bind_spec (M := fun _ => Counted P 0) ?_ fun _ => ret_spec
  exact Spec.post (forEach_spec (I := fun l u => Counted P 0 u ∧ ∀ h ∈ l, u.refCount? h = none)
    (fun _ _ => restrictManifest_spec) gone) fun _ _ hu => hu.1

/-! ## Verified calls -/

/-- `EnsureBlock` keeps the counts if a slack of one is allowed. -/
theorem ensureBlock_spec (h1 : P 1) :
    Spec P (Counted P 0) (ensureBlock h t size now) fun _ => Counted P 0 := by
  refine bind_spec (insertBlockRow_spec h1 rfl) fun isNew => Triple.ite (fun _ => ?_) fun _ => ?_
  · exact bind_spec (references_spec id) fun _ => ret_spec
  · exact ret_spec

theorem deleteBlocks_spec : Spec P (Counted P 0) (deleteBlocks hashes) fun _ => Counted P 0 :=
  Triple.ite (fun _ => ret_spec) fun _ => deleteOrphans_spec

theorem updateTier_spec : Spec P (Counted P 0) (updateTier h) fun _ => Counted P 0 := by
  refine bind_spec read_spec fun s => Spec.pre (A := Counted P 0) ?_ fun _ hu => hu.2
  refine Triple.ite (fun _ => ?_) fun _ => ret_spec
  refine bind_spec (M := fun _ => Counted P 0) (rewriteRow_spec ?_ (fun _ hv => hv) ?_)
    fun _ => ret_spec
  · exact covered_block rfl (Option.map _) (fun d h' => Table.lookup_modify h h' _ d.blocks)
      fun _ => rfl
  · intro d u _ hu _
    split
    · exact hu.retier
    · exact hu

theorem nextVersionNumber_spec : Spec P A (nextVersionNumber n) fun _ => A := by
  refine bind_spec forUpdate_spec fun _ => ?_
  refine bind_spec read_spec fun s => ?_
  exact Triple.checked id fun _ => Spec.post ret_spec fun _ _ hu => hu.2

theorem insertFileVersion_spec :
    Spec P (Counted P pend) (insertFileVersion v r) fun _ => Counted P pend := by
  refine Triple.checked id fun _ => Triple.checked id fun _ => ?_
  refine bind_spec (M := fun _ => Counted P pend) (stmt_spec (fun _ => List.Subset.refl _)
    (fun _ => covered_elsewhere _ (fun _ => rfl) fun _ => rfl) ?_) fun _ => ?_
  · intro _ u _ hu _
    exact hu
  refine Triple.checked id fun _ => Triple.checked id fun _ => ?_
  exact references_spec id

theorem upsertBlocks_spec (h0 : P 0) {blocks : List BlockMeta} :
    Spec P (Counted P 0) (upsertBlocks t now blocks) fun _ => Counted P 0 := by
  refine bind_spec (M := fun _ => Counted P 0) ?_ fun inserted => ?_
  · refine collect_spec (I := fun _ _ => Counted P 0) (fun b _ _ => ?_) blocks
    exact bind_spec (insertBlockRow_spec h0 rfl) fun _ => ret_spec
  · exact forEach_spec (I := fun _ => Counted P 0) (fun _ _ => references_spec id) inserted

theorem markCompleted_spec : Spec P (Counted P 0) (markCompleted s n) fun _ => Counted P 0 := by
  refine bind_spec read_spec fun _ => Spec.pre (A := Counted P 0) ?_ fun _ hu => hu.2
  refine Triple.ite (fun _ => ?_) fun _ => ret_spec
  refine bind_spec (M := fun _ => Counted P 0)
    (rewriteRow_spec (covered_elsewhere _ (fun _ => rfl) fun _ => rfl) (fun _ hv => hv) ?_)
    fun _ => ret_spec
  intro d u _ hu _
  split <;> exact hu

theorem validateSession_spec : Spec P A (validateSession a session) fun _ => A := by
  refine Triple.checked id fun _ => Triple.checked id fun _ => Triple.checked id fun _ => ?_
  exact Spec.post (check_spec id) fun _ _ hu => hu.2

theorem commitFile_spec (h0 : P 0) : Spec P (Counted P 0) (commitFile a) fun _ => Counted P 0 := by
  refine bind_spec forUpdate_spec fun v => ?_
  split
  · exact Triple.raise id
  · next session _ =>
    refine bind_spec validateSession_spec fun _ => ?_
    split
    · exact Triple.raise id
    · refine bind_spec forUpdate_spec fun _ => ?_
      refine bind_spec nextVersionNumber_spec fun _ => ?_
      refine bind_spec insertFileVersion_spec fun _ => ?_
      refine bind_spec (upsertBlocks_spec h0) fun _ => ?_
      refine bind_spec insertManifestBlocks_spec fun _ => ?_
      exact bind_spec markCompleted_spec fun _ => ret_spec

theorem commitCall_spec (h0 : P 0) (c : CommitCall) :
    Spec P (Counted P 0) c.body fun _ => Counted P 0 := by
  cases c with
  | file a => exact bind_spec (commitFile_spec h0) fun _ => ret_spec
  | version a =>
    refine bind_spec (M := fun _ => Counted P 0) ?_ fun _ => ret_spec
    refine bind_spec nextVersionNumber_spec fun _ => ?_
    exact bind_spec insertFileVersion_spec fun _ => ret_spec

/-- Every call keeps the counts, if the slack it can leave is allowed: none, and one where
`EnsureBlock` makes a row. -/
theorem call_spec (h0 : P 0) (c : Call)
    (h1 : ∀ h t size now, c = .ensureBlock h t size now → P 1) :
    Spec P (Counted P 0) c.body fun _ => Counted P 0 := by
  cases c with
  | commit c => exact bind_spec (commitCall_spec h0 c) fun _ => ret_spec
  | deleteVersion v => exact bind_spec deleteVersion_spec fun _ => ret_spec
  | ensureBlock h t size now =>
    exact bind_spec (ensureBlock_spec (h1 _ _ _ _ rfl)) fun _ => ret_spec
  | deleteBlocks hashes => exact bind_spec deleteBlocks_spec fun _ => ret_spec
  | gcDeleteUnreferenced batch =>
    exact bind_spec (bind_spec deleteOrphans_spec fun _ => ret_spec) fun _ => ret_spec
  | updateTier h => exact bind_spec updateTier_spec fun _ => ret_spec

theorem transaction_spec (h0 : P 0) (h1 : P 1) (cs : List Call) :
    Spec P (Counted P 0) (transaction cs) fun _ => Counted P 0 := by
  induction cs with
  | nil => exact ret_spec
  | cons c cs ih =>
    refine bind_spec (call_spec h0 c fun _ _ _ _ _ => h1) fun _ => ?_
    exact bind_spec ih fun _ => ret_spec

/-! ## Single calls -/

/-- The protocol of a pool whose transactions are single calls: the counts are exact. -/
def counting : Protocol Db DbLock Err Call Res :=
  footprint.protocol (fun w => Counted (· = 0) 0 w.db) Unreachable

/-- All calls but `EnsureBlock` keep the counts exact. -/
theorem call_commits (hc : ∀ h t size now, c ≠ .ensureBlock h t size now) (w : World Db Call Res)
    (hw : counting.Inv w) : counting.wp c.body (counting.Commits c) [] id w := by
  have hspec : Spec (· = 0) (Counted (· = 0) 0) c.body fun _ => Counted (· = 0) 0 :=
    call_spec (P := (· = 0)) rfl c fun h t size now heq => absurd heq (hc h t size now)
  exact (Triple.retype hspec).commits (fun _ hw => hw) (fun _ _ _ _ _ _ hu => hu) hw

/-! ## Whole runs -/

theorem Counted.seed (tenants : Table Uuid TenantRow) (nodes : Table Uuid NodeRow)
    (sessions : Table Uuid SessionRow) : Counted P 0 (Db.seed tenants nodes sessions) := by
  intro h
  show Balanced P 0 none 0
  simp [Balanced]

/-- The count of a balanced block is the number of rows that name it and the slack. -/
theorem Counted.refCount_eq_add (hc : Counted P 0 d) (h : Hash) :
    ∃ slack : Nat, (slack = 0 ∨ P slack) ∧ d.refCount h = d.manifestCount h + slack := by
  have h0 := hc h
  rw [refCount]
  cases hb : d.refCount? h with
  | none => exact ⟨0, .inl rfl, by simp [hc.manifestCount_of_absent hb]⟩
  | some c =>
    rw [hb] at h0
    obtain ⟨slack, hs, hr⟩ := h0
    exact ⟨slack, .inr hs, by simpa using hr⟩

/-- The count of a balanced block covers the rows that name it. -/
theorem Counted.manifestCount_le (hc : Counted P 0 d) (h : Hash) :
    (d.manifestCount h : Int) ≤ d.refCount h := by
  obtain ⟨slack, -, hr⟩ := hc.refCount_eq_add h
  omega

/-- Without slack the count is the number of rows. -/
theorem Counted.refCount_eq (hc : Counted (· = 0) 0 d) (h : Hash) :
    d.refCount h = d.manifestCount h := by
  obtain ⟨slack, hs, hr⟩ := hc.refCount_eq_add h
  omega

/-- Whatever transactions of these calls run together, the counts are kept and nothing unreachable
is raised. -/
theorem transactions_good {tenants : Table Uuid TenantRow} {nodes : Table Uuid NodeRow}
    {sessions : Table Uuid SessionRow}
    (hr : (Sys.init (Db.seed tenants nodes sessions)).run transaction acts = some s) :
    (footprint.protocol (fun w => Counted (fun _ => True) 0 w.db) Unreachable).Good s :=
  Protocol.sound (fun _ hm => hm)
    (fun cs _ hw => Triple.commits (transaction_spec trivial trivial cs) (fun _ hw => hw)
      (fun _ _ _ _ _ _ hu => hu) hw)
    (Counted.seed tenants nodes sessions) hr

/-- **References are never undercounted.** In every state that concurrent transactions reach, the
count of a block is at least the number of manifest rows that name it. So no count is negative, a
block without a row is named by no manifest row, and no transaction has failed for a missing block
at the deletion of a manifest row, for a negative count, or for deleting a block in use. -/
theorem refCount_ge_manifestCount {tenants : Table Uuid TenantRow} {nodes : Table Uuid NodeRow}
    {sessions : Table Uuid SessionRow} {acts : List (Action (List Call))}
    {s : Sys Db DbLock Err (List Call) (List Res)}
    (hr : (Sys.init (Db.seed tenants nodes sessions)).run transaction acts = some s) :
    (∀ h, (s.world.db.manifestCount h : Int) ≤ s.world.db.refCount h) ∧
    (∀ h c, s.world.db.refCount? h = some c → 0 ≤ c) ∧
    (∀ h, hasBlock h s.world.db = false → s.world.db.manifestCount h = 0) ∧
    ∀ (i : Nat) (t : Tx Db DbLock Err (List Call) (List Res)) (e : Err),
      s.txns[i]? = some t → t.phase = .failed e → ¬ Unreachable e := by
  have hgood := transactions_good hr
  have hle := hgood.inv.manifestCount_le
  refine ⟨hle, ?_, ?_, fun i t e hi he => hgood.errs hi he⟩
  · intro h c hc
    have := hle h
    rw [refCount, hc, Option.getD_some] at this
    omega
  · intro h hb
    have hnone : s.world.db.refCount? h = none := by
      simpa [hasBlock, refCount?] using hb
    have := hle h
    rw [refCount, hnone, Option.getD_none] at this
    omega

/-- One tenant, its root, and a session for a file of two chunks. -/
def twoChunksSeed : Db :=
  Db.seed (AList.singleton 1 ⟨100, 0⟩)
    (AList.singleton 2 ⟨1, none, ['r'], .directory, [Uuid.nodeLabel 2], 0, false⟩)
    (AList.singleton 3 ⟨1, some 2, .initiated, 7, 2, 0, 50⟩)

/-- A block is registered, a file is committed that consists of it twice, and meanwhile a collection
asks for its deletion. -/
def twoChunksRun : List (Action (List Call)) := List.flatten [
  [.start [.ensureBlock 5 1 4 0], .exec 0, .exec 0, .commit 0,
    .start [.commit (.file ⟨1, 3, 9, [⟨5, 0, 0, 4⟩, ⟨5, 1, 4, 3⟩], 4, 10, 10⟩)]],
  List.replicate 20 (.exec 1),
  [.start [.gcDeleteUnreferenced [5]], .exec 2, .commit 1, .commit 2]]

theorem refCount_ge_manifestCount_twoChunks :
    ∃ s, (Sys.init twoChunksSeed).run transaction twoChunksRun = some s ∧
      s.world.db.refCount 5 = 3 ∧ (s.world.db.manifestCount 5 : Int) ≤ s.world.db.refCount 5 := by
  have hrun : ((Sys.init twoChunksSeed).run transaction twoChunksRun).map
      (fun s => s.world.db.refCount 5) = some 3 := by decide +kernel
  obtain ⟨s, hs, hcount⟩ := Option.map_eq_some_iff.1 hrun
  exact ⟨s, hs, hcount, (refCount_ge_manifestCount hs).1 5⟩

end Aegis.Cas
