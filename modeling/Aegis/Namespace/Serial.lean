import Aegis.Namespace.Lineage
import Aegis.Ingress.Writes

/-!
# The namespace, one call at a time

`create_root`, INSERT, `move_directory`, `soft_delete_node` and DELETE, each served alone in a
transaction that is rolled back when it raises. Starting from no nodes at all, the table is a tree
with exact paths and at most one root for each tenant, so that `<@` on stored paths is ancestry.
-/

namespace Aegis.Namespace

open Db Stmt Txn Txn.Prog

/-! ## Changes that calls make -/

/-- Every root was a root of its tenant before. -/
def NoNewRoot (d d' : Db) : Prop :=
  ∀ n r', d'.nodes.lookup n = some r' → r'.parentId = none →
    ∃ r, d.nodes.lookup n = some r ∧ r.parentId = none ∧ r.tenantId = r'.tenantId

/-- `namespace_nodes` is not written. -/
def SameNodes (d d' : Db) : Prop := d'.nodes = d.nodes

/-- At most one root for each tenant (`uq_tenant_root`). -/
def OneRoot (d : Db) : Prop :=
  ∀ ⦃n n' r r'⦄, d.nodes.lookup n = some r → d.nodes.lookup n' = some r' → r.parentId = none →
    r'.parentId = none → r.tenantId = r'.tenantId → n = n'

variable {d d' : Db} {t n m : Uuid}

theorem SameShape.refl (d : Db) : SameShape d d := fun _ => rfl

theorem SameShape.trans {a b c : Db} (hab : SameShape a b) (hbc : SameShape b c) :
    SameShape a c :=
  fun n => (hbc n).trans (hab n)

theorem NoNewRoot.refl (d : Db) : NoNewRoot d d := fun _ r hr hp => ⟨r, hr, hp, rfl⟩

theorem NoNewRoot.trans {a b c : Db} (hab : NoNewRoot a b) (hbc : NoNewRoot b c) :
    NoNewRoot a c := by
  intro n r'' hr'' hp''
  obtain ⟨r', hr', hp', ht'⟩ := hbc n r'' hr'' hp''
  obtain ⟨r, hr, hp, ht⟩ := hab n r' hr' hp'
  exact ⟨r, hr, hp, ht.trans ht'⟩

theorem SameNodes.refl (d : Db) : SameNodes d d := rfl

theorem SameNodes.trans {a b c : Db} (hab : SameNodes a b) (hbc : SameNodes b c) :
    SameNodes a c :=
  Eq.trans hbc hab

theorem SameShape.noNewRoot (h : SameShape d d') : NoNewRoot d d' := by
  intro n r' hr' hp'
  have hn := h n
  rw [hr', Option.map_some] at hn
  obtain ⟨r, hr, heq⟩ := Option.map_eq_some_iff.1 hn.symm
  obtain ⟨hp, -, -, ht⟩ : r.parentId = r'.parentId ∧ r.lineagePath = r'.lineagePath ∧
      r.type = r'.type ∧ r.tenantId = r'.tenantId := by simpa using heq
  exact ⟨r, hr, hp.trans hp', ht⟩

theorem SameNodes.sameShape (h : SameNodes d d') : SameShape d d' := by
  intro n
  rw [show d'.nodes = d.nodes from h]

theorem OneRoot.mono (h : OneRoot d) (hd : NoNewRoot d d') : OneRoot d' := by
  intro n n' r r' hr hr' hp hp' ht
  obtain ⟨r₀, hr₀, hp₀, ht₀⟩ := hd n r hr hp
  obtain ⟨r₁, hr₁, hp₁, ht₁⟩ := hd n' r' hr' hp'
  exact h hr₀ hr₁ hp₀ hp₁ (by rw [ht₀, ht, ht₁])

/-- A row rewritten in columns that neither the tree nor the roots are about. -/
theorem sameShape_modify
    (hf : ∀ r, ((f r).parentId, (f r).lineagePath, (f r).type, (f r).tenantId) =
      (r.parentId, r.lineagePath, r.type, r.tenantId)) (d : Db) :
    SameShape d { d with nodes := Table.modify n f d.nodes } := by
  intro x
  rw [Table.lookup_modify]
  split
  · rw [Option.map_map]
    congr 1
    funext r
    exact hf r
  · rfl

theorem noNewRoot_setLineage (d : Db) : NoNewRoot d (setLineage n newParent path d) := by
  intro x r' hr' hp'
  rw [setLineage, Table.lookup_modify] at hr'
  split at hr'
  · obtain ⟨r, hr, rfl⟩ := Option.map_eq_some_iff.1 hr'
    exact ⟨r, hr, (Option.or_eq_none_iff.1 hp').2, rfl⟩
  · exact ⟨r', hr', hp', rfl⟩

/-! ## What each procedure writes -/

section Statements

variable {R : Db → Db → Prop}

theorem ltreeConcat_within : (ltreeConcat a b).Within R :=
  Within.check.bind fun _ => Within.ret

theorem subpath_within : (subpath path k).Within R :=
  Within.check.bind fun _ => Within.ret

theorem varchar255_within : (varchar255 s).Within R :=
  Within.check.bind fun _ => Within.ret

theorem remappedPath_within : (remappedPath n sp dp m r).Within R :=
  Within.ite (fun _ => ltreeConcat_within) fun _ => ltreeConcat_within.bind fun _ =>
    subpath_within.bind fun _ => ltreeConcat_within

variable (hrefl : ∀ d, R d d)
include hrefl

theorem referencesParent_within : (referencesParent p).Within R := by
  cases p with
  | none => exact Within.ret
  | some p => exact references_within hrefl

theorem readLineage_within : (readLineage n).Within R := Within.stmt fun _ => hrefl

theorem lineageGuardUpdate_within : (lineageGuardUpdate b n old new).Within R := by
  refine Within.ite (fun _ => Within.check.bind fun _ => Within.ret) fun _ => ?_
  refine Within.check.bind fun _ => ?_
  split
  · trivial
  · refine (readLineage_within hrefl).bind fun v => ?_
    split
    · trivial
    · exact Within.check.bind fun _ => ltreeConcat_within

theorem lineageGuardInsert_within : (lineageGuardInsert n t p).Within R := by
  cases p with
  | none => exact Within.ret
  | some p =>
    refine (readLineage_within hrefl).bind fun v => ?_
    split
    · exact Within.raise
    · refine Within.check.bind fun _ => Within.check.bind fun _ => Within.check.bind fun _ => ?_
      exact ltreeConcat_within

theorem lockEndpoints_within : (lockEndpoints t n m).Within R :=
  (Within.read hrefl).bind fun _ => Within.forEach (fun _ =>
    (forUpdate_within hrefl).bind fun _ => Within.ret) _

end Statements

/-! A relation that admits the write of one row admits what a move, an INSERT and a soft delete
write. -/

section Writes

variable {R : Db → Db → Prop} (hrefl : ∀ d, R d d)

section Move

variable (hset : ∀ n newParent path d, R d (setLineage n newParent path d))
include hset

theorem writeLineage_within : (writeLineage n m x new).Within R := by
  refine Within.ite (fun _ => ?_) fun _ => ?_
  · refine (Within.stmt fun _ => hset _ _ _).bind fun _ => ?_
    exact Within.check.bind fun _ => Within.check
  · exact (Within.stmt fun _ => hset _ _ _).bind fun _ => Within.check

include hrefl

theorem remapRow_within : (remapRow t n m sp dp x).Within R := by
  refine (forUpdate_within hrefl).bind fun v => ?_
  split
  · trivial
  · refine Within.ite (fun _ => ?_) fun _ => Within.ret
    refine (remappedPath_within).bind fun _ => ?_
    refine (lineageGuardUpdate_within hrefl).bind fun _ => ?_
    exact Within.check.bind fun _ => (writeLineage_within hset).bind fun _ => Within.ret

theorem remapSubtree_within : (remapSubtree scan t n m sp dp).Within R := by
  refine (Within.stmt fun _ => hrefl).bind fun v => ?_
  refine (Within.collect (fun _ => remapRow_within hrefl hset) _).bind fun moved => ?_
  refine (Within.forEach (fun _ => ?_) _).bind fun _ => Within.check
  exact referencesParent_within hrefl

theorem moveUnder_within : (moveUnder scan t n m src).Within R := by
  refine (readLineage_within hrefl).bind fun v => ?_
  split
  · trivial
  · refine Within.check.bind fun _ => Within.check.bind fun _ => Within.check.bind fun _ => ?_
    refine (Within.read hrefl).bind fun _ => ?_
    exact Within.check.bind fun _ => remapSubtree_within hrefl hset

theorem moveDirectory_within {n m : Option Uuid} : (moveDirectory t n m).Within R := by
  unfold moveDirectory moveScanning
  split
  · refine Within.ite (fun _ => Within.raise) fun _ => ?_
    refine (lockEndpoints_within hrefl).bind fun _ => ?_
    refine (Within.read hrefl).bind fun _ => Within.check.bind fun _ => ?_
    refine (readLineage_within hrefl).bind fun v => ?_
    split
    · trivial
    · exact Within.check.bind fun _ => Within.check.bind fun _ => moveUnder_within hrefl hset
  · trivial

end Move

include hrefl

theorem softDeleteNode_within (htomb : ∀ n name d, R d (tombstone n name d))
    (hbump : ∀ n d, R d (bumpEpoch n d)) : (softDeleteNode t n).Within R := by
  refine (forUpdate_within hrefl).bind fun v => ?_
  split
  · trivial
  · refine Within.bind ?_ fun _ => (Within.read hrefl).bind fun _ =>
      Within.forEach (fun x => ?_) _
    · refine (Within.read hrefl).bind fun _ => Within.ite (fun _ => ?_) fun _ => Within.ret
      refine (forUpdate_within hrefl).bind fun v => ?_
      split
      · trivial
      · refine (varchar255_within).bind fun _ => Within.check.bind fun _ => ?_
        exact (Within.stmt fun _ => htomb _ _).bind fun _ => Within.check
    · exact (rewriteRow_within hrefl (hbump x)).bind fun _ => Within.check

end Writes

/-! A relation that admits the writes of a DELETE admits the DELETE with its cascade. -/

section Cascade

variable {R : Db → Db → Prop} (hrefl : ∀ d, R d d) (hdrop : ∀ h d, R d (dropRef h d))
  (hversion : ∀ v d, R d (eraseVersion v d)) (hmanifest : ∀ v i d, R d (eraseManifest v i d))
include hrefl hdrop hversion hmanifest

theorem deleteVersion_within : (Cas.deleteVersion v).Within R := by
  refine Ingress.deleteVersion_uses.within fun f hf => ?_
  cases hf with
  | skip => exact hrefl
  | eraseVersion => exact hversion v
  | eraseManifest _ i => exact hmanifest v i
  | dropRef _ h => exact hdrop h

variable (hclear : ∀ s d, R d (clearSessionNode s d))
include hclear

theorem afterDeleteNode_within : (afterDeleteNode n).Within R := by
  refine (Within.read hrefl).bind fun _ => Within.check.bind fun _ => ?_
  refine (Within.read hrefl).bind fun _ => ?_
  refine (Within.forEach (fun _ => deleteVersion_within hrefl hdrop hversion hmanifest) _).bind
    fun _ => ?_
  refine (Within.read hrefl).bind fun _ => Within.forEach (fun _ => ?_) _
  exact (rewriteRow_within hrefl (hclear _)).bind fun _ => Within.ret

theorem deleteNode_within (herase : ∀ d, R d (eraseNode n d)) : (deleteNode n).Within R := by
  refine (Within.read hrefl).bind fun _ => Within.ite (fun _ => ?_) fun _ => Within.ret
  refine (rewriteRow_within hrefl herase).bind fun _ => ?_
  exact Within.ite (fun _ => afterDeleteNode_within hrefl hdrop hversion hmanifest hclear)
    fun _ => Within.ret

end Cascade

/-! ## One call -/

/-- A DELETE that succeeds removes the row, if there is one, and the row has no children. -/
theorem deleteNode_alone (h : (deleteNode n).alone d = .ok ((), d')) :
    SameNodes d d' ∨
      d'.nodes = (eraseNode n d).nodes ∧ hasChildren n (eraseNode n d) = false := by
  rw [deleteNode, bind_eq, alone_read_bind, alone_ite] at h
  split at h
  · next hn =>
    rw [bind_eq, rewriteRow, alone_stmt_bind, if_pos hn, if_pos hn] at h
    refine .inr ⟨(afterDeleteNode_within SameNodes.refl (fun _ _ => rfl) (fun _ _ => rfl)
      (fun _ _ _ => rfl) fun _ _ => rfl).alone SameNodes.refl SameNodes.trans h, ?_⟩
    rw [afterDeleteNode, bind_eq, alone_read_bind] at h
    simpa using (alone_check_bind_ok h).1
  · cases h
    exact .inl rfl

/-- An INSERT that succeeds: the row is added, and what its constraints ask for holds. -/
structure Inserts (d : Db) (n : Uuid) (r : NodeRow) (d' : Db) : Prop where
  eq : d' = d.insertNode n r
  absent : d.nodes.lookup n = none
  name : r.name.any (· != ' ') = true
  slot : slotTaken n r d = false
  indexed : gistTupleSize r.lineagePath ≤ 8148
  tenant : hasTenant r.tenantId d = true

theorem insertNodeRow_alone (h : (insertNodeRow n r).alone d = .ok ((), d')) :
    Inserts d n r d' := by
  simp only [insertNodeRow, bind_eq] at h
  obtain ⟨-, h⟩ := alone_check_bind_ok h
  obtain ⟨hname, h⟩ := alone_check_bind_ok h
  rw [alone_stmt_bind] at h
  obtain ⟨hnew, h⟩ := alone_check_bind_ok h
  obtain ⟨hslot, h⟩ := alone_check_bind_ok h
  obtain ⟨hindex, h⟩ := alone_check_bind_ok h
  obtain ⟨_, d₁, htenant, h⟩ := alone_bind_ok h
  rw [references_alone] at htenant
  split at htenant
  · next hten =>
    cases htenant
    have heq : d.insertNode n r = d' := (referencesParent_within Eq.refl).alone Eq.refl Eq.trans h
    exact ⟨heq.symm, by simpa [hasNode] using hnew, hname, by simpa using hslot,
      of_decide_eq_true hindex, hten⟩
  · cases htenant

/-- The row that an INSERT adds, and the path that the trigger gives it. -/
theorem insertNode_alone (h : (insertNode a).alone d = .ok ((), d')) :
    ∃ r, Inserts d a.nodeId r d' ∧
      (lineageGuardInsert a.nodeId a.tenantId a.parentId).alone d = .ok (r.lineagePath, d) := by
  obtain ⟨name, d₁, hname, h⟩ := alone_bind_ok h
  obtain ⟨path, d₂, hpath, h⟩ := alone_bind_ok h
  obtain rfl : d = d₁ := varchar255_within.alone Eq.refl Eq.trans hname
  obtain rfl : d = d₂ := (lineageGuardInsert_within Eq.refl).alone Eq.refl Eq.trans hpath
  exact ⟨_, insertNodeRow_alone h, hpath⟩

/-- A new root takes the slot of the tenant. -/
theorem OneRoot.insert (h : OneRoot d) (hslot : slotTaken n r d = false)
    (hd : d'.nodes = (d.insertNode n r).nodes) : OneRoot d' := by
  have hold : ∀ {x q}, d'.nodes.lookup x = some q →
      d.nodes.lookup x = some q ∨ x = n ∧ q = r := by
    intro x q hq
    rw [hd, lookup_insertNode] at hq
    split at hq
    · next hx =>
      cases hx' : d.nodes.lookup x with
      | none =>
        rw [hx', Option.getD_none] at hq
        exact .inr ⟨hx, (Option.some.inj hq).symm⟩
      | some q' =>
        rw [hx', Option.getD_some] at hq
        exact .inl hq
    · exact .inl hq
  have hfree : ∀ {x q}, d.nodes.lookup x = some q → q.parentId = none → r.parentId = none →
      r.tenantId = q.tenantId → x = n := by
    intro x q hq hqp hrp ht
    by_contra hne
    have hnone := List.any_eq_false.1 hslot ⟨x, q⟩ (Table.mem_entries.2 hq)
    simp [hne, sameSlot, hqp, hrp, ht] at hnone
  intro x x' q q' hq hq' hp hp' ht
  rcases hold hq with hq | ⟨rfl, rfl⟩
  · rcases hold hq' with hq' | ⟨rfl, rfl⟩
    · exact h hq hq' hp hp' ht
    · exact hfree hq hp hp' ht.symm
  · rcases hold hq' with hq' | ⟨rfl, rfl⟩
    · exact (hfree hq' hp' hp ht).symm
    · rfl

/-- What a served call keeps. -/
structure Sound (d : Db) : Prop where
  tree : Tree d
  oneRoot : OneRoot d

theorem sound_empty (d : Db) : Sound { d with nodes := ∅ } := ⟨⟨⟨nofun, nofun⟩, nofun⟩, nofun⟩

/-- Placing a node keeps the tree: what holds under concurrency holds alone. -/
theorem PlaceCall.tree_alone {c : PlaceCall} (h : Tree d) (hok : c.body.alone d = .ok ((), d')) :
    Tree d' := by
  have hrun := Footprint.Triple.alone (w := ⟨d, []⟩) c.ensures (fun _ _ => rfl) h
  rw [hok] at hrun
  obtain ⟨-, htree⟩ := hrun
  exact htree

theorem Sound.insertNode (h : Sound d) (hok : (insertNode a).alone d = .ok ((), d')) :
    Sound d' := by
  obtain ⟨r, hins, -⟩ := insertNode_alone hok
  exact ⟨PlaceCall.tree_alone (c := .insert a) h.tree hok,
    h.oneRoot.insert hins.slot (congrArg Db.nodes hins.eq)⟩

theorem Sound.deleteNode (h : Sound d) (hok : (deleteNode n).alone d = .ok ((), d')) :
    Sound d' := by
  rcases deleteNode_alone hok with hsame | ⟨hd', hleaf⟩
  · exact ⟨h.tree.congr hsame.sameShape, h.oneRoot.mono hsame.sameShape.noNewRoot⟩
  · have hlookup : ∀ x, d'.nodes.lookup x = if x = n then none else d.nodes.lookup x := by
      intro x
      rw [hd']
      exact Table.lookup_erase_eq n x d.nodes
    constructor
    · refine h.tree.eraseNode (fun x hx => ?_) hlookup
      obtain ⟨r, hr, hp⟩ := forest_child.1 hx
      rcases eq_or_ne x n with rfl | hne
      · exact h.tree.lined.acyclic x (.single hx)
      · have hkept : (eraseNode n d).nodes.lookup x = some r := by
          rw [← hd', hlookup, if_neg hne, hr]
        have hnone := List.any_eq_false.1 hleaf ⟨x, r⟩ (Table.mem_entries.2 hkept)
        simp [hp] at hnone
    · refine h.oneRoot.mono fun x r hr hp => ?_
      rw [hlookup] at hr
      split at hr
      · cases hr
      · exact ⟨r, hr, hp, rfl⟩

theorem insertNode_of_createRoot (h : (Call.createRoot n t name).body.alone d = .ok ((), d')) :
    (insertNode ⟨n, t, none, name, .directory⟩).alone d = .ok ((), d') := by
  obtain ⟨_, d₁, hcreate, ⟨⟩⟩ := alone_bind_ok h
  obtain ⟨_, d₂, hinsert, ⟨⟩⟩ := alone_bind_ok hcreate
  exact hinsert

/-- **One call** keeps the namespace sound. -/
theorem sound_after (h : Sound d) (c : Call) : Sound (after d c) := by
  rw [after]
  split
  · next d' hok =>
    cases c with
    | createRoot n t name =>
      exact h.insertNode (insertNode_of_createRoot hok)
    | place c =>
      cases c with
      | insert a => exact h.insertNode hok
      | move t n m =>
        exact ⟨PlaceCall.tree_alone (c := .move t n m) h.tree hok, h.oneRoot.mono
          ((moveDirectory_within NoNewRoot.refl fun _ _ _ => noNewRoot_setLineage).alone
            NoNewRoot.refl NoNewRoot.trans hok)⟩
    | softDelete t n =>
      have hsame := (softDeleteNode_within SameShape.refl (fun _ _ => sameShape_modify fun _ => rfl)
        fun _ => sameShape_modify fun _ => rfl).alone SameShape.refl SameShape.trans hok
      exact ⟨h.tree.congr hsame, h.oneRoot.mono hsame.noNewRoot⟩
    | delete n => exact h.deleteNode hok
  · exact h

/-! ## Sequences of calls -/

theorem sound_serial (h : Sound d) (cs : List Call) : Sound (serial d cs) := by
  induction cs generalizing d with
  | nil => exact h
  | cons c cs ih => exact ih (sound_after h c)

/-- `p` is the parent of `x`. -/
def Parent (d : Db) (x p : Uuid) : Prop := ∃ r, d.nodes.lookup x = some r ∧ r.parentId = some p

theorem child_forest (d : Db) : Forest.Child d.forest = Parent d := by
  funext x p
  exact propext forest_child

/-- **The namespace of every sequence of calls.** From an empty table: parents exist, are
directories and of the same tenant; nobody is their own ancestor; a tenant has one root at most;
paths are exact; and the `<@` of two paths says that the second node is the first or an ancestor. -/
theorem namespace_serial (d : Db) (cs : List Call) :
    let s := serial { d with nodes := ∅ } cs
    (∀ n r p, s.nodes.lookup n = some r → r.parentId = some p →
      ∃ parent, s.nodes.lookup p = some parent ∧ parent.type = .directory ∧
        parent.tenantId = r.tenantId ∧ r.lineagePath = parent.lineagePath ++ [n.nodeLabel]) ∧
    (∀ n, ¬ Relation.TransGen (Parent s) n n) ∧
    (∀ n n' r r', s.nodes.lookup n = some r → s.nodes.lookup n' = some r' → r.parentId = none →
      r'.parentId = none → r.tenantId = r'.tenantId → n = n') ∧
    (∀ n r, s.nodes.lookup n = some r → r.parentId = none → r.lineagePath = [n.nodeLabel]) ∧
    ∀ x y r r', s.nodes.lookup x = some r → s.nodes.lookup y = some r' →
      (r.lineagePath.descendantOf r'.lineagePath = true ↔
        Relation.ReflTransGen (Parent s) x y) := by
  intro s
  obtain ⟨htree, hroot⟩ : Sound s := sound_serial (sound_empty d) cs
  have hchild := child_forest s
  refine ⟨?_, ?_, hroot, ?_, ?_⟩
  · intro n r p hr hp
    obtain ⟨pr, hpr, hdir, hten⟩ := htree.parent hr hp
    obtain ⟨o, path, hpath, hr'⟩ := htree.lined.child (hp ▸ forest_of_lookup hr)
    cases (forest_of_lookup hpr).symm.trans hpath
    exact ⟨pr, hpr, hdir, hten, hr'⟩
  · rw [← hchild]
    exact htree.lined.acyclic
  · intro n r hr hp
    exact htree.lined.root (hp ▸ forest_of_lookup hr)
  · intro x y r r' hx hy
    rw [← hchild, LTree.descendantOf_iff]
    exact htree.lined.isPrefix_iff Uuid.nodeLabel_injective (forest_of_lookup hx)
      (forest_of_lookup hy)

end Aegis.Namespace
