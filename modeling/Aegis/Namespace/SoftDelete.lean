import Aegis.Namespace.Deleted

/-!
# What a soft delete comes to

`soft_delete_node` run alone, followed to its end in every case (`softDeleteNode_cases`). It
succeeds just if the new name fits its column and finds its slot free, and every epoch it raises has
a successor (`Deletable`). The row of the node then has the mark, the new name and a new epoch, the
rows strictly below it a new epoch, and the slot of the old name is free.
-/

namespace Aegis.Namespace

open Db Stmt Txn.Prog

variable {d d' e : Db} {t n p x : Uuid} {r q : NodeRow} {left : List Uuid} {path : LTree}

/-! ## The tombstone -/

/-- `name || '~del:' || substr(node_id::text, 1, 8)`. -/
def tombstoneName (n : Uuid) (name : List Char) : List Char :=
  name ++ "~del:".toList ++ n.text.take 8

theorem length_tombstoneName (n : Uuid) (name : List Char) :
    (tombstoneName n name).length = name.length + 13 := by
  have htext : (n.text.take 8).length = 8 := by
    rw [List.length_take, Uuid.text, Uuid.length_grouped]
    rfl
  have hmark : "~del:".toList.length = 5 := rfl
  rw [tombstoneName, List.length_append, List.length_append, htext, hmark]

/-- The new name ends with a digit or a dash. -/
theorem tombstoneName_last (n : Uuid) (name : List Char) :
    ∃ init c, tombstoneName n name = init ++ [c] ∧ c ≠ ' ' := by
  have hne : n.text.take 8 ≠ [] := by
    rw [← List.length_pos_iff_ne_nil, List.length_take, Uuid.text, Uuid.length_grouped]
    decide
  refine ⟨name ++ "~del:".toList ++ (n.text.take 8).dropLast, (n.text.take 8).getLast hne, ?_, ?_⟩
  · rw [List.append_assoc, List.dropLast_append_getLast]
    rfl
  · intro hblank
    have hmem := List.mem_of_mem_take (List.getLast_mem hne)
    rw [hblank] at hmem
    rcases Uuid.of_mem_grouped hmem with h | h
    · exact absurd h (by decide)
    · exact absurd h (by decide)

/-- What does not fit the column is not blank, so nothing is cut off. -/
theorem varchar255_tombstoneName (n : Uuid) (name : List Char) (e : Db) :
    (varchar255 (tombstoneName n name)).alone e =
      if name.length + 13 ≤ 255 then .ok (tombstoneName n name, e)
      else .error .stringDataRightTruncation := by
  have hlen := length_tombstoneName n name
  rw [varchar255, bind_eq, alone_check_bind]
  by_cases hfit : name.length + 13 ≤ 255
  · have hall : ((tombstoneName n name).drop 255).all (· == ' ') = true := by
      rw [List.drop_eq_nil_of_le (by omega)]
      rfl
    have htake : (tombstoneName n name).take 255 = tombstoneName n name :=
      List.take_of_length_le (by omega)
    rw [if_pos hall, if_pos hfit, htake]
    rfl
  · obtain ⟨init, c, heq, hc⟩ := tombstoneName_last n name
    have hinit : 255 ≤ init.length := by
      rw [heq, List.length_append, List.length_singleton] at hlen
      omega
    have hall : ¬ ((tombstoneName n name).drop 255).all (· == ' ') = true := by
      rw [heq, List.drop_append_of_le_length hinit, List.all_append]
      simp [hc]
    rw [if_neg hall, if_neg hfit]

/-- The row of the node after the first UPDATE. -/
def tombstoned (n : Uuid) (r : NodeRow) : NodeRow :=
  { r with isDeleted := true, name := tombstoneName n r.name, aclEpoch := r.aclEpoch + 1 }

/-- The slot of a row does not depend on its epoch. -/
theorem slotTaken_tombstoned :
    slotTaken n { r with isDeleted := true, name := tombstoneName n r.name } d =
      slotTaken n (tombstoned n r) d := rfl

/-- The first UPDATE can be made. -/
structure Renamable (d : Db) (n : Uuid) (r : NodeRow) : Prop where
  name : r.name.length + 13 ≤ 255
  epoch : fitsBigint (r.aclEpoch + 1) = true
  slot : slotTaken n (tombstoned n r) d = false

theorem lookup_tombstone (n x : Uuid) (name : List Char) (d : Db) :
    (tombstone n name d).nodes.lookup x =
      if x = n then (d.nodes.lookup x).map fun r =>
        { r with isDeleted := true, name := name, aclEpoch := r.aclEpoch + 1 }
      else d.nodes.lookup x :=
  Table.lookup_modify n x _ d.nodes

/-- **The first UPDATE.** -/
theorem tombstoneRow_cases (hr : d.nodeOf t n = some r) :
    (Renamable d n r ∧
      (tombstoneRow t n).alone d = .ok ((), tombstone n (tombstoneName n r.name) d)) ∨
    ¬ Renamable d n r ∧ ∃ err, (tombstoneRow t n).alone d = .error err := by
  obtain ⟨hlookup, hten⟩ := lookup_of_nodeOf hr
  have hhas : hasNodeOf t n d = true := by
    rw [hasNodeOf, hlookup, Option.map_some, Option.getD_some, hten, beq_self_eq_true]
  have hbody : (tombstoneRow t n).alone d =
      ((varchar255 (tombstoneName n r.name)).bind fun name =>
        (check (fitsBigint (r.aclEpoch + 1)) .numericValueOutOfRange).bind fun _ =>
          (stmt (fun _ => slotLocks { r with isDeleted := true, name := name })
            (fun _ => slotLocks { r with isDeleted := true, name := name })
            (fun _ => tombstone n name)).bind fun v =>
              check (!slotTaken n { r with isDeleted := true, name := name } v)
                (.uniqueViolation
                  (slotConstraint { r with isDeleted := true, name := name }))).alone d := by
    rw [tombstoneRow, bind_eq, alone_read_bind, if_pos hhas, forUpdate, acquire, bind_eq,
      alone_stmt_bind, hr]
    rfl
  rw [hbody]
  by_cases hname : r.name.length + 13 ≤ 255
  · rw [alone_bind_of_ok ((varchar255_tombstoneName n r.name d).trans (if_pos hname)),
      alone_check_bind]
    by_cases hepoch : fitsBigint (r.aclEpoch + 1) = true
    · rw [if_pos hepoch, alone_stmt_bind, alone_check, slotTaken_tombstoned]
      cases hslot : slotTaken n (tombstoned n r) d with
      | false => exact .inl ⟨⟨hname, hepoch, hslot⟩, rfl⟩
      | true => exact .inr ⟨fun h => Bool.noConfusion (hslot.symm.trans h.slot), _, rfl⟩
    · exact .inr ⟨fun h => hepoch h.epoch, _, if_neg hepoch⟩
  · rw [alone_bind_of_error ((varchar255_tombstoneName n r.name d).trans (if_neg hname))]
    exact .inr ⟨fun h => hname h.name, _, rfl⟩

/-! ## The rows below -/

theorem mem_descendants :
    x ∈ d.descendants t n path ↔
      ∃ q, d.nodes.lookup x = some q ∧ q.tenantId = t ∧ path <+: q.lineagePath ∧ x ≠ n := by
  simp only [Db.descendants, Table.mem_keysWhere, Bool.and_eq_true, beq_iff_eq, bne_iff_ne,
    LTree.descendantOf_iff, and_assoc]

/-- One row of the second UPDATE. -/
theorem bumpRow_alone (hq : e.nodes.lookup x = some q) (hten : q.tenantId = t)
    (hpre : path <+: q.lineagePath) (hne : x ≠ n) :
    (bumpRow t n path x).alone e =
      if fitsBigint (q.aclEpoch + 1) then .ok ((), bumpEpoch x e)
      else .error .numericValueOutOfRange := by
  have hof : e.nodeOf t x = some q := by
    rw [nodeOf, hq, Option.filter_some, hten, beq_self_eq_true]
    rfl
  have hpicked : (((e.nodeOf t x).map fun r => r.lineagePath.descendantOf path && x != n).getD
      false) = true := by
    rw [hof, Option.map_some, Option.getD_some, Bool.and_eq_true, bne_iff_ne,
      LTree.descendantOf_iff]
    exact ⟨hpre, hne⟩
  rw [bumpRow, bind_eq, rewriteRow, alone_stmt_bind, alone_check]
  dsimp only
  rw [if_pos hpicked]
  simp only [hpicked, hq, Bool.not_true, Bool.false_or, Option.map_some, Option.getD_some]

/-- The second UPDATE on its way: the rows in `left` are still to be raised. -/
structure Bumping (d : Db) (t n : Uuid) (path : LTree) (left : List Uuid) (e : Db) : Prop where
  nodup : left.Nodup
  picked : ∀ x ∈ left, x ∈ d.descendants t n path
  progress : ∀ x, e.nodes.lookup x =
    if x ∈ d.descendants t n path ∧ x ∉ left then
      (d.nodes.lookup x).map fun r => { r with aclEpoch := r.aclEpoch + 1 }
    else d.nodes.lookup x

theorem Bumping.pending (h : Bumping d t n path (x :: left) e) :
    e.nodes.lookup x = d.nodes.lookup x := by
  rw [h.progress]
  exact if_neg fun hc => hc.2 List.mem_cons_self

/-- One more row is raised. -/
theorem Bumping.land (h : Bumping d t n path (x :: left) e) :
    Bumping d t n path left (bumpEpoch x e) := by
  obtain ⟨hnot, hnodup⟩ := List.nodup_cons.1 h.nodup
  refine ⟨hnodup, fun y hy => h.picked y (List.mem_cons_of_mem x hy), fun y => ?_⟩
  rw [bumpEpoch, Table.lookup_modify]
  by_cases hy : y = x
  · rw [hy, if_pos rfl, h.pending]
    exact (if_pos ⟨h.picked x List.mem_cons_self, hnot⟩).symm
  · rw [if_neg hy, h.progress]
    simp only [hy, List.mem_cons, false_or]

/-- Every row below the node has a next epoch. -/
def BelowFit (d : Db) (t n : Uuid) (path : LTree) : Prop :=
  ∀ x ∈ d.descendants t n path, ∀ q, d.nodes.lookup x = some q → fitsBigint (q.aclEpoch + 1) = true

/-- **The second UPDATE.** -/
theorem bumpRows_cases (d : Db) (t n : Uuid) (path : LTree) :
    (BelowFit d t n path ∧ ∃ d',
      (forEach (d.descendants t n path) (bumpRow t n path)).alone d = .ok ((), d') ∧
        Bumping d t n path [] d') ∨
    ¬ BelowFit d t n path ∧ ∃ err,
      (forEach (d.descendants t n path) (bumpRow t n path)).alone d = .error err := by
  have hrow : ∀ {x left e}, Bumping d t n path (x :: left) e → ∃ q, d.nodes.lookup x = some q ∧
      (bumpRow t n path x).alone e =
        if fitsBigint (q.aclEpoch + 1) then .ok ((), bumpEpoch x e)
        else .error .numericValueOutOfRange := by
    intro x left e h
    obtain ⟨q, hq, hten, hpre, hne⟩ := mem_descendants.1 (h.picked x List.mem_cons_self)
    exact ⟨q, hq, bumpRow_alone (h.pending.trans hq) hten hpre hne⟩
  refine alone_forEach_cases (I := Bumping d t n path) ?_ ?_ ?_
  · intro x left e h hfit
    obtain ⟨q, hq, hbump⟩ := hrow h
    exact ⟨_, hbump.trans (if_pos (hfit q hq)), h.land⟩
  · intro x left e h hfit
    obtain ⟨q, hq, hbump⟩ := hrow h
    refine ⟨_, hbump.trans (if_neg fun hq' => hfit fun q' hlookup => ?_)⟩
    cases hq.symm.trans hlookup
    exact hq'
  · exact ⟨Table.nodup_keysWhere _ _, fun _ hx => hx, fun x => (if_neg fun hc => hc.2 hc.1).symm⟩

/-! ## The whole call -/

/-- What a soft delete needs. -/
structure Deletable (d : Db) (t n : Uuid) (r : NodeRow) : Prop extends Renamable d n r where
  below : BelowFit d t n r.lineagePath

theorem mem_descendants_tombstone :
    x ∈ (tombstone n name d).descendants t n path ↔ x ∈ d.descendants t n path := by
  rw [mem_descendants, mem_descendants]
  refine exists_congr fun q => ?_
  rw [lookup_tombstone]
  by_cases hx : x = n
  · exact iff_of_false (fun h => h.2.2.2 hx) fun h => h.2.2.2 hx
  · rw [if_neg hx]

theorem belowFit_tombstone : BelowFit (tombstone n name d) t n path ↔ BelowFit d t n path := by
  refine forall_congr' fun x => ?_
  rw [mem_descendants_tombstone]
  refine forall_congr' fun hx => ?_
  obtain ⟨-, -, -, -, hne⟩ := mem_descendants.1 hx
  rw [lookup_tombstone, if_neg hne]

/-- What the call does to the row of `x`. -/
def Deleted (d : Db) (t n : Uuid) (r : NodeRow) (d' : Db) : Prop :=
  ∀ x, d'.nodes.lookup x =
    if x = n then some (tombstoned n r)
    else if x ∈ d.descendants t n r.lineagePath then
      (d.nodes.lookup x).map fun q => { q with aclEpoch := q.aclEpoch + 1 }
    else d.nodes.lookup x

/-- **The cases of a soft delete.** -/
theorem softDeleteNode_cases (hr : d.nodeOf t n = some r) :
    (Deletable d t n r ∧
      ∃ d', (softDeleteNode t n).alone d = .ok ((), d') ∧ Deleted d t n r d') ∨
    ¬ Deletable d t n r ∧ ∃ err, (softDeleteNode t n).alone d = .error err := by
  obtain ⟨hlookup, -⟩ := lookup_of_nodeOf hr
  have hbody : (softDeleteNode t n).alone d = ((tombstoneRow t n).bind fun _ => read.bind fun s =>
      forEach (s.descendants t n r.lineagePath) (bumpRow t n r.lineagePath)).alone d := by
    rw [softDeleteNode, bind_eq, forUpdate, acquire, alone_stmt_bind, hr]
    rfl
  rw [hbody]
  rcases tombstoneRow_cases hr with ⟨hname, htomb⟩ | ⟨hname, err, htomb⟩
  · rw [alone_bind_of_ok htomb, alone_read_bind]
    rcases bumpRows_cases (tombstone n (tombstoneName n r.name) d) t n r.lineagePath with
      ⟨hfit, d', hd', hbumped⟩ | ⟨hfit, err, herr⟩
    · refine .inl ⟨⟨hname, belowFit_tombstone.1 hfit⟩, d', hd', fun x => ?_⟩
      rw [hbumped.progress, lookup_tombstone]
      simp only [mem_descendants_tombstone, List.not_mem_nil, not_false_eq_true, and_true]
      by_cases hx : x = n
      · -- the node itself is not below it
        have hnot : x ∉ d.descendants t n r.lineagePath := by
          intro hmem
          obtain ⟨-, -, -, -, hne⟩ := mem_descendants.1 hmem
          exact hne hx
        rw [if_neg hnot, if_pos hx, if_pos hx, hx, hlookup]
        rfl
      · rw [if_neg hx, if_neg hx]
    · exact .inr ⟨fun h => hfit (belowFit_tombstone.2 h.below), err, herr⟩
  · exact .inr ⟨fun h => hname h.toRenamable, err, alone_bind_of_error htomb⟩

/-- The rows that the second UPDATE picks are those strictly below the node. -/
theorem mem_descendants_iff (htree : Tree d) (hr : d.nodeOf t n = some r) :
    x ∈ d.descendants t n r.lineagePath ↔ Relation.TransGen (Parent d) x n := by
  obtain ⟨hlookup, hten⟩ := lookup_of_nodeOf hr
  have hreach : ∀ {q}, d.nodes.lookup x = some q →
      (r.lineagePath <+: q.lineagePath ↔ Relation.ReflTransGen (Parent d) x n) := by
    intro q hq
    rw [← child_forest]
    exact htree.lined.isPrefix_iff Uuid.nodeLabel_injective (forest_of_lookup hq)
      (forest_of_lookup hlookup)
  rw [mem_descendants]
  constructor
  · rintro ⟨q, hq, -, hpre, hne⟩
    rcases Relation.reflTransGen_iff_eq_or_transGen.1 ((hreach hq).1 hpre) with heq | hbelow
    · exact absurd heq.symm hne
    · exact hbelow
  · intro hbelow
    obtain ⟨y, ⟨q, hq, hp⟩, -⟩ := Relation.TransGen.head'_iff.1 hbelow
    have hpre := (hreach hq).2 hbelow.to_reflTransGen
    refine ⟨q, hq, (htree.tenant_of_subtree hlookup hq hpre).trans hten, hpre, ?_⟩
    rintro rfl
    have hacyclic := htree.lined.acyclic x
    rw [child_forest] at hacyclic
    exact hacyclic hbelow

/-- A soft delete that succeeds, by pointers. -/
theorem Deleted.frame (htree : Tree d) (hr : d.nodeOf t n = some r) (h : Deleted d t n r d') :
    d'.nodes.lookup n = some (tombstoned n r) ∧
    ∀ x, x ≠ n →
      (Relation.TransGen (Parent d) x n → ∃ q, d.nodes.lookup x = some q ∧
        d'.nodes.lookup x = some { q with aclEpoch := q.aclEpoch + 1 }) ∧
      (¬ Relation.TransGen (Parent d) x n → d'.nodes.lookup x = d.nodes.lookup x) := by
  refine ⟨by rw [h, if_pos rfl], fun x hx => ⟨fun hbelow => ?_, fun hout => ?_⟩⟩
  · obtain ⟨y, ⟨q, hq, -⟩, -⟩ := Relation.TransGen.head'_iff.1 hbelow
    refine ⟨q, hq, ?_⟩
    rw [h, if_neg hx, if_pos ((mem_descendants_iff htree hr).2 hbelow), hq, Option.map_some]
  · rw [h, if_neg hx, if_neg ((mem_descendants_iff htree hr).not.2 hout)]

theorem softDeleteNode_nodesOnly : (softDeleteNode t n).Within NodesOnly :=
  softDeleteNode_within NodesOnly.refl (fun _ _ _ => rfl) fun _ _ => rfl

/-- What a soft delete that succeeds has found and done. -/
theorem deleted_of_ok (h : (softDeleteNode t n).alone d = .ok ((), d')) :
    ∃ r, d.nodeOf t n = some r ∧ Deletable d t n r ∧ Deleted d t n r d' := by
  cases hr : d.nodeOf t n with
  | none =>
    rw [softDeleteNode, bind_eq, forUpdate, acquire, alone_stmt_bind, hr] at h
    cases h
  | some r =>
    rcases softDeleteNode_cases hr with ⟨hdel, d₁, hok, hd₁⟩ | ⟨-, err, herr⟩
    · cases h.symm.trans hok
      exact ⟨r, rfl, hdel, hd₁⟩
    · cases h.symm.trans herr

/-! ## The constraints of the table -/

/-- The columns of `uq_parent_name`. -/
def slotKey (r : NodeRow) : Uuid × Option Uuid × List Char × Bool :=
  (r.tenantId, r.parentId, r.name, r.isDeleted)

theorem sameSlot_comm (r q : NodeRow) : sameSlot r q = sameSlot q r := by
  unfold sameSlot
  cases r.parentId with
  | none =>
    cases q.parentId with
    | none => exact BEq.comm
    | some p => rfl
  | some p =>
    cases q.parentId with
    | none => rfl
    | some p' =>
      dsimp only
      rw [BEq.comm (a := r.tenantId), BEq.comm (a := p), BEq.comm (a := r.name),
        BEq.comm (a := r.isDeleted)]

theorem sameSlot_congr (h : slotKey r' = slotKey r) (q : NodeRow) :
    sameSlot r' q = sameSlot r q := by
  simp only [slotKey, Prod.mk.injEq] at h
  obtain ⟨hten, hparent, hname, hdel⟩ := h
  rw [sameSlot, sameSlot, hten, hparent, hname, hdel]

/-- The constraints of `namespace_nodes` on what is stored: `nodes_name_not_blank`, the limit of the
index on paths, the foreign key of the tenant, and the unique indexes. -/
structure Constrained (d : Db) : Prop where
  name : ∀ {x r}, d.nodes.lookup x = some r → r.name.any (· != ' ') = true
  path : ∀ {x r}, d.nodes.lookup x = some r → gistTupleSize r.lineagePath ≤ 8148
  tenant : ∀ {x r}, d.nodes.lookup x = some r → hasTenant r.tenantId d = true
  slots : ∀ {x r}, d.nodes.lookup x = some r → slotTaken x r d = false

/-- A change of rows in which `n` alone takes another slot, which is free. -/
theorem Constrained.update (hc : Constrained d) (htenants : d'.tenants = d.tenants) (n : Uuid)
    (hrow : ∀ {x r'}, d'.nodes.lookup x = some r' → ∃ r, d.nodes.lookup x = some r ∧
      r'.tenantId = r.tenantId ∧ r'.name.any (· != ' ') = true ∧
      gistTupleSize r'.lineagePath ≤ 8148 ∧ (x ≠ n → slotKey r' = slotKey r))
    (hslot : ∀ {r'}, d'.nodes.lookup n = some r' → slotTaken n r' d = false) :
    Constrained d' := by
  constructor
  · intro x r' hr'
    obtain ⟨r, -, -, hname, -⟩ := hrow hr'
    exact hname
  · intro x r' hr'
    obtain ⟨r, -, -, -, hpath, -⟩ := hrow hr'
    exact hpath
  · intro x r' hr'
    obtain ⟨r, hr, hten, -⟩ := hrow hr'
    rw [hasTenant, htenants, hten]
    exact hc.tenant hr
  · intro x r' hr'
    rw [← Bool.not_eq_true, slotTaken_iff]
    rintro ⟨y, q', hne, hq', hsame⟩
    obtain ⟨r, hr, -, -, -, hkey⟩ := hrow hr'
    obtain ⟨q, hq, -, -, -, hkey'⟩ := hrow hq'
    -- one of the two may be `n`
    by_cases hx : x = n
    · subst hx
      rw [sameSlot_comm, sameSlot_congr (hkey' hne), sameSlot_comm] at hsame
      exact Bool.noConfusion ((hslot hr').symm.trans (slotTaken_iff.2 ⟨y, q, hne, hq, hsame⟩))
    · rw [sameSlot_congr (hkey hx)] at hsame
      by_cases hy : y = n
      · subst hy
        rw [sameSlot_comm] at hsame
        exact Bool.noConfusion
          ((hslot hq').symm.trans (slotTaken_iff.2 ⟨x, r, hx, hr, hsame⟩))
      · rw [sameSlot_comm, sameSlot_congr (hkey' hy), sameSlot_comm] at hsame
        exact Bool.noConfusion ((hc.slots hr).symm.trans (slotTaken_iff.2 ⟨y, q, hne, hq, hsame⟩))

theorem Inserts.lookup (h : Inserts d n r d') (x : Uuid) :
    d'.nodes.lookup x = if x = n then some r else d.nodes.lookup x := by
  rw [h.eq, lookup_insertNode]
  split
  · next hx => rw [hx, h.absent, Option.getD_none]
  · rfl

/-- A new row that has passed the checks. -/
theorem Constrained.insert (hc : Constrained d) (h : Inserts d n r d') : Constrained d' := by
  have hold : ∀ {x q}, d'.nodes.lookup x = some q →
      x = n ∧ q = r ∨ x ≠ n ∧ d.nodes.lookup x = some q := by
    intro x q hq
    rw [h.lookup] at hq
    split at hq
    · next hx => exact .inl ⟨hx, (Option.some.inj hq).symm⟩
    · next hx => exact .inr ⟨hx, hq⟩
  have htenants : d'.tenants = d.tenants := by rw [h.eq]; rfl
  constructor
  · intro x q hq
    rcases hold hq with ⟨-, rfl⟩ | ⟨-, hq⟩
    · exact h.name
    · exact hc.name hq
  · intro x q hq
    rcases hold hq with ⟨-, rfl⟩ | ⟨-, hq⟩
    · exact h.indexed
    · exact hc.path hq
  · intro x q hq
    rw [hasTenant, htenants]
    rcases hold hq with ⟨-, rfl⟩ | ⟨-, hq⟩
    · exact h.tenant
    · exact hc.tenant hq
  · intro x q hq
    rw [← Bool.not_eq_true, slotTaken_iff]
    rintro ⟨y, q', hne, hq', hsame⟩
    rcases hold hq with ⟨rfl, rfl⟩ | ⟨hx, hq⟩
    · rcases hold hq' with ⟨hy, -⟩ | ⟨-, hq'⟩
      · exact hne hy
      · exact Bool.noConfusion (h.slot.symm.trans (slotTaken_iff.2 ⟨y, q', hne, hq', hsame⟩))
    · rcases hold hq' with ⟨rfl, rfl⟩ | ⟨-, hq'⟩
      · rw [sameSlot_comm] at hsame
        exact Bool.noConfusion (h.slot.symm.trans (slotTaken_iff.2 ⟨x, q, hx, hq, hsame⟩))
      · exact Bool.noConfusion ((hc.slots hq).symm.trans (slotTaken_iff.2 ⟨y, q', hne, hq', hsame⟩))

theorem Constrained.insertNode (hc : Constrained d) (h : (insertNode a).alone d = .ok ((), d')) :
    Constrained d' := by
  obtain ⟨r, hins, -⟩ := insertNode_alone h
  exact hc.insert hins

/-- A move keeps the constraints. -/
theorem Constrained.move (hc : Constrained d) (htree : Tree d) {n p : Option Uuid}
    (h : (moveDirectory t n p).alone d = .ok ((), d')) : Constrained d' := by
  have htenants : d'.tenants = d.tenants :=
    (moveDirectory_nodesOnly.alone NodesOnly.refl NodesOnly.trans h).tenants
  obtain ⟨n', p', src, dst, rfl, rfl, hm⟩ := movable_of_ok h
  obtain ⟨-, hten⟩ := lookup_of_nodeOf hm.source
  rcases moveDirectory_cases htree.lined hm with ⟨-, h'⟩ | ⟨-, -, h'⟩ | ⟨-, -, -, err, h', -⟩ |
    ⟨-, hfree, hfits, e, h', he⟩
  · cases h.symm.trans h'
  · cases h.symm.trans h'
  · cases h.symm.trans h'
  · cases h.symm.trans h'
    rw [subtreeFits_iff htree.lined hm] at hfits
    refine hc.update htenants n' ?_ ?_
    · intro x r' hr'
      rw [he.progress] at hr'
      split at hr'
      · next hx =>
        obtain ⟨r, hr, rfl⟩ := Option.map_eq_some_iff.1 hr'
        have hname := hc.name hr
        refine ⟨r, hr, rfl, hname, ?_, fun hne => ?_⟩
        · exact (gistTupleSize_remapped htree.lined (lookup_of_nodeOf hm.target).1 hr).2
            (hfits x hx.1 r hr).1
        · rw [slotKey, remapped, if_neg hne]
          rfl
      · exact ⟨r', hr', rfl, hc.name hr', hc.path hr', fun _ => rfl⟩
    · intro r' hr'
      rw [he.progress, if_pos ⟨source_mem_subtree hm, List.not_mem_nil⟩,
        (lookup_of_nodeOf hm.source).1, Option.map_some] at hr'
      cases hr'
      rw [← Bool.not_eq_true, slotTaken_iff_nameTaken (r := remapped _ _ _ _ _ _) hten
        (if_pos rfl) hm.live]
      exact hfree

/-- A soft delete keeps the constraints. -/
theorem Constrained.softDelete (hc : Constrained d)
    (h : (softDeleteNode t n).alone d = .ok ((), d')) : Constrained d' := by
  have htenants : d'.tenants = d.tenants :=
    (softDeleteNode_nodesOnly.alone NodesOnly.refl NodesOnly.trans h).tenants
  obtain ⟨r, hr, hdel, hd'⟩ := deleted_of_ok h
  obtain ⟨hlookup, -⟩ := lookup_of_nodeOf hr
  refine hc.update htenants n ?_ ?_
  · intro x r' hr'
    rw [hd'] at hr'
    split at hr'
    · next hx =>
      cases hr'
      have hpath := hc.path hlookup
      refine ⟨r, hx ▸ hlookup, rfl, ?_, hpath, fun hne => absurd hx hne⟩
      obtain ⟨init, c, hname, hchar⟩ := tombstoneName_last n r.name
      rw [tombstoned, hname, List.any_append]
      simp [hchar]
    · split at hr'
      · obtain ⟨q, hq, rfl⟩ := Option.map_eq_some_iff.1 hr'
        have hname := hc.name hq
        have hpath := hc.path hq
        exact ⟨q, hq, rfl, hname, hpath, fun _ => rfl⟩
      · exact ⟨r', hr', rfl, hc.name hr', hc.path hr', fun _ => rfl⟩
  · intro r' hr'
    rw [hd', if_pos rfl] at hr'
    cases hr'
    exact hdel.slot

/-- A DELETE keeps the constraints. -/
theorem Constrained.delete (hc : Constrained d)
    (h : (deleteNode n).alone d = .ok ((), d')) : Constrained d' := by
  have hwithin : (deleteNode n).Within fun d d' : Db => d'.tenants = d.tenants :=
    deleteNode_within (fun _ => rfl) (fun _ _ => rfl) (fun _ _ => rfl) (fun _ _ _ => rfl)
      (fun _ _ => rfl) fun _ => rfl
  have htenants := Txn.Prog.Within.alone (R := fun d d' : Db => d'.tenants = d.tenants)
    (fun _ => rfl) (fun hab hbc => hbc.trans hab) hwithin h
  have hrow : ∀ {x r}, d'.nodes.lookup x = some r → d.nodes.lookup x = some r := by
    intro x r hr
    rcases deleteNode_alone h with hsame | ⟨hd', -⟩
    · rwa [← hsame]
    · rw [hd', eraseNode, Table.lookup_erase_eq] at hr
      split at hr
      · cases hr
      · exact hr
  refine hc.update htenants n (fun {x r} hr => ?_) fun hr => hc.slots (hrow hr)
  exact ⟨r, hrow hr, rfl, hc.name (hrow hr), hc.path (hrow hr), fun _ => rfl⟩

/-- **One call** keeps the constraints. -/
theorem constrained_after (hs : Sound d) (hc : Constrained d) (c : Call) :
    Constrained (after d c) := by
  rw [after]
  split
  · next d' hok =>
    cases c with
    | createRoot n t name =>
      exact hc.insertNode (insertNode_of_createRoot hok)
    | place c =>
      cases c with
      | insert a => exact hc.insertNode hok
      | move t n p => exact hc.move hs.tree hok
    | softDelete t n => exact hc.softDelete hok
    | delete n => exact hc.delete hok
  · exact hc

/-- **Every reachable table meets its constraints.** -/
theorem constrained_serial (hs : Sound d) (hc : Constrained d) (cs : List Call) :
    Constrained (serial d cs) := by
  induction cs generalizing d with
  | nil => exact hc
  | cons c cs ih => exact ih (sound_after hs c) (constrained_after hs hc c)

/-! ## The freed slot -/

/-- A node can be inserted under a live directory of the tenant, with a name that is free. -/
structure Insertable (d : Db) (a : NewNode) (p : Uuid) (parent : NodeRow) : Prop where
  parentId : a.parentId = some p
  lookup : d.nodes.lookup p = some parent
  tenant : parent.tenantId = a.tenantId
  directory : parent.type = .directory
  live : parent.isDeleted = false
  indexed : gistTupleSize (parent.lineagePath ++ [a.nodeId.nodeLabel]) ≤ 8148
  fits : (a.name.drop 255).all (· == ' ') = true
  name : (a.name.take 255).any (· != ' ') = true
  fresh : d.nodes.lookup a.nodeId = none
  known : hasTenant a.tenantId d = true
  slot : slotTaken a.nodeId ⟨a.tenantId, some p, a.name.take 255, a.type,
    parent.lineagePath ++ [a.nodeId.nodeLabel], 1, false⟩ d = false

theorem insertNode_succeeds (h : Insertable d a p parent) :
    ∃ d', (insertNode a).alone d = .ok ((), d') := by
  have hlevels : parent.lineagePath.length + [a.nodeId.nodeLabel].length ≤ 65535 := by
    have hle := length_le_gistTupleSize (parent.lineagePath ++ [a.nodeId.nodeLabel])
    have := h.indexed
    rw [List.length_append] at hle
    omega
  have hguard : (lineageGuardInsert a.nodeId a.tenantId (some p)).alone d =
      .ok (parent.lineagePath ++ [a.nodeId.nodeLabel], d) := by
    rw [lineageGuardInsert, bind_eq, readLineage, alone_stmt_bind, h.lookup]
    dsimp only
    rw [bind_eq, alone_check_bind, if_pos (by simpa using h.tenant), bind_eq, alone_check_bind,
      if_pos (by simpa using h.directory), bind_eq, alone_check_bind,
      if_pos (by simpa using h.live), ltreeConcat_alone]
    exact if_pos hlevels
  have htenant' : ∀ r, hasTenant a.tenantId (d.insertNode a.nodeId r) = true := fun _ => h.known
  have hkeeps : ∀ r, hasNode p (d.insertNode a.nodeId r) = true := by
    intro r
    rw [hasNode, lookup_insertNode]
    split
    · rfl
    · rw [h.lookup]
      rfl
  have hname : (varchar255 a.name).alone d = .ok (a.name.take 255, d) := by
    rw [varchar255, bind_eq, alone_check_bind, if_pos h.fits]
    rfl
  refine ⟨d.insertNode a.nodeId ⟨a.tenantId, some p, a.name.take 255, a.type,
    parent.lineagePath ++ [a.nodeId.nodeLabel], 1, false⟩, ?_⟩
  rw [insertNode, bind_eq, alone_bind_of_ok hname, h.parentId, bind_eq,
    alone_bind_of_ok hguard, insertNodeRow, bind_eq, alone_check_bind, if_pos (by simp), bind_eq,
    alone_check_bind, if_pos h.name, bind_eq, alone_stmt_bind, bind_eq, alone_check_bind,
    if_pos (by simp [hasNode, h.fresh]), bind_eq, alone_check_bind,
    if_pos (by rw [h.slot]; rfl), bind_eq, indexLineage, alone_check_bind,
    if_pos (decide_eq_true h.indexed), bind_eq,
    alone_bind_of_ok ((references_alone _ _ _ _).trans (if_pos (htenant' _))), referencesParent,
    references_alone, if_pos (hkeeps _)]

/-- **The effect of a soft delete.** In a tree, a soft delete that succeeds gives the row of the
node the mark, the tombstone name and the next epoch, the rows strictly below it the next epoch, and
leaves every other row and every other table. If the node was live and in a live directory, its old
name can be given to a new node there. -/
theorem softDeleteNode_effect (d : Db) (hd : Tree d) (t n : Uuid) (d' : Db)
    (h : (softDeleteNode t n).alone d = .ok ((), d')) :
    ∃ r, d.nodeOf t n = some r ∧ d'.nodes.lookup n = some (tombstoned n r) ∧
      (∀ x, x ≠ n →
        (Relation.TransGen (Parent d) x n → ∃ q, d.nodes.lookup x = some q ∧
          d'.nodes.lookup x = some { q with aclEpoch := q.aclEpoch + 1 }) ∧
        (¬ Relation.TransGen (Parent d) x n → d'.nodes.lookup x = d.nodes.lookup x)) ∧
      d' = { d with nodes := d'.nodes } ∧
      ∀ p parent, Constrained d → r.isDeleted = false → r.parentId = some p →
        d.nodes.lookup p = some parent → parent.isDeleted = false →
        ∀ m type, d'.nodes.lookup m = none →
          ∃ d'', (insertNode ⟨m, t, some p, r.name, type⟩).alone d' = .ok ((), d'') := by
  obtain ⟨r, hr, hdel, hd'⟩ := deleted_of_ok h
  obtain ⟨hlookup, hten⟩ := lookup_of_nodeOf hr
  have honly := softDeleteNode_nodesOnly.alone NodesOnly.refl NodesOnly.trans h
  obtain ⟨hself, hframe⟩ := hd'.frame hd hr
  refine ⟨r, hr, hself, hframe, honly, ?_⟩
  intro p parent hc hlive hp hparent hplive m type hnew
  have hacyclic := hd.lined.acyclic
  rw [child_forest] at hacyclic
  have hedge : Parent d n p := ⟨r, hlookup, hp⟩
  -- the parent is neither the node nor below it
  have hpn : p ≠ n := by
    rintro rfl
    exact hacyclic p (.single hedge)
  have hparent' : d'.nodes.lookup p = some parent := by
    rw [(hframe p hpn).2 fun hbelow => hacyclic n (.head hedge hbelow), hparent]
  obtain ⟨parent', hpr, hdir, hpten⟩ := hd.parent hlookup hp
  cases hparent.symm.trans hpr
  obtain ⟨o, path, hpath, hrpath⟩ := hd.lined.child (hp ▸ forest_of_lookup hlookup)
  cases (forest_of_lookup hparent).symm.trans hpath
  -- all node labels take the same space, so the new path fits as the old one did
  have hindex : gistTupleSize (parent.lineagePath ++ [m.nodeLabel]) ≤ 8148 := by
    have := hc.path hlookup
    rw [gistTupleSize, hrpath, List.map_append, List.map_singleton, Uuid.length_nodeLabel] at this
    rwa [gistTupleSize, List.map_append, List.map_singleton, Uuid.length_nodeLabel]
  have htenant : hasTenant t d' = true := by
    rw [hasTenant, honly, ← hten]
    exact hc.tenant hlookup
  have hshort : r.name.length ≤ 255 := by
    have := hdel.name
    omega
  have hblank : (r.name.drop 255).all (· == ' ') = true := by
    rw [List.drop_eq_nil_of_le hshort]
    rfl
  refine insertNode_succeeds ⟨rfl, hparent', hpten.trans hten, hdir, hplive, hindex, hblank, ?_,
    hnew, htenant, ?_⟩
  · rw [List.take_of_length_le hshort]
    exact hc.name hlookup
  dsimp only
  rw [List.take_of_length_le hshort]
  rw [← Bool.not_eq_true, slotTaken_iff_of_parent rfl]
  rintro ⟨x, q', -, hq', hxten, hxp, hxname, hxlive⟩
  -- a row that holds the slot now, held it before, beside the node
  have hbefore : x ≠ n ∧ ∃ q, d.nodes.lookup x = some q ∧ slotKey q' = slotKey q := by
    rw [hd'] at hq'
    split at hq'
    · cases hq'
      cases hxlive
    · next hx =>
      split at hq'
      · obtain ⟨q, hq, rfl⟩ := Option.map_eq_some_iff.1 hq'
        exact ⟨hx, q, hq, rfl⟩
      · exact ⟨hx, q', hq', rfl⟩
  obtain ⟨hx, q, hq, hkey⟩ := hbefore
  simp only [slotKey, Prod.mk.injEq] at hkey
  obtain ⟨hkten, hkp, hkname, hkdel⟩ := hkey
  have htaken : slotTaken n r d = true := by
    refine (slotTaken_iff_of_parent hp).2 ⟨x, q, hx, hq, ?_, hkp ▸ hxp, hkname ▸ hxname, ?_⟩
    · exact hkten.symm.trans (hxten.trans hten.symm)
    · exact hkdel.symm.trans (hxlive.trans hlive.symm)
  exact Bool.noConfusion ((hc.slots hlookup).symm.trans htaken)

/-- `a` is deleted, and a new file of that name goes to the root. -/
theorem softDeleteNode_effect_threeDirectories :
    ∃ d' d'', (softDeleteNode 1 3).alone threeDirectories = .ok ((), d') ∧
      (insertNode ⟨6, 1, some 2, ['a'], .file⟩).alone d' = .ok ((), d'') := by
  have hsound : Sound (Db.seed (AList.singleton 1 ⟨100, 0⟩) ∅ ∅) :=
    sound_empty (Db.seed (AList.singleton 1 ⟨100, 0⟩) ∅ ∅)
  have hempty : Constrained (Db.seed (AList.singleton 1 ⟨100, 0⟩) ∅ ∅) :=
    ⟨nofun, nofun, nofun, nofun⟩
  have hc : Constrained threeDirectories := constrained_serial hsound hempty _
  have hrow : (threeDirectories.nodeOf 1 3).map (fun r => (r.isDeleted, r.parentId, r.name)) =
      some (false, some 2, ['a']) := by decide +kernel
  have hroot : (threeDirectories.nodes.lookup 2).map NodeRow.isDeleted = some false := by
    decide +kernel
  have hok : ((softDeleteNode 1 3).alone threeDirectories).isOk = true := by decide +kernel
  have hnew : threeDirectories.nodes.lookup 6 = none := by decide +kernel
  cases h : (softDeleteNode 1 3).alone threeDirectories with
  | error err =>
    rw [h] at hok
    cases hok
  | ok res =>
    obtain ⟨⟨⟩, d'⟩ := res
    obtain ⟨r, hr, -, hframe, -, hinsert⟩ :=
      softDeleteNode_effect threeDirectories tree_threeDirectories 1 3 d' h
    obtain ⟨root, hroot, hlive⟩ := Option.map_eq_some_iff.1 hroot
    rw [hr, Option.map_some, Option.some.injEq] at hrow
    obtain ⟨hdel, hrest⟩ := Prod.mk.inj hrow
    obtain ⟨hp, hname⟩ := Prod.mk.inj hrest
    have hnew' : d'.nodes.lookup 6 = none := by
      rw [(hframe 6 (by decide)).2, hnew]
      rintro hbelow
      obtain ⟨y, ⟨q, hq, -⟩, -⟩ := Relation.TransGen.head'_iff.1 hbelow
      cases hnew.symm.trans hq
    obtain ⟨d'', hd''⟩ := hinsert 2 root hc hdel hp hroot hlive 6 .file hnew'
    rw [hname] at hd''
    exact ⟨d', d'', rfl, hd''⟩

/-! ## When a soft delete is possible -/

/-- A root finds its slot taken only by another root of its tenant. -/
theorem slotTaken_of_root (hroot : OneRoot d) (hlookup : d.nodes.lookup n = some r)
    (hp : r.parentId = none) : slotTaken n (tombstoned n r) d = false := by
  rw [← Bool.not_eq_true, slotTaken_iff]
  rintro ⟨x, q, hne, hq, hsame⟩
  have hten : r.tenantId = q.tenantId ∧ q.parentId = none := by
    unfold sameSlot tombstoned at hsame
    rw [hp] at hsame
    cases hqp : q.parentId with
    | none =>
      rw [hqp] at hsame
      exact ⟨beq_iff_eq.1 hsame, rfl⟩
    | some p =>
      rw [hqp] at hsame
      cases hsame
  exact hne (hroot hq hlookup hten.2 hp hten.1.symm)

/-- **When a soft delete is possible.** In every reachable state, the soft delete of a node of the
tenant succeeds just if its name has at most 242 characters, no tombstone in its directory has the
tombstone name, and neither its epoch nor that of a node below it is the greatest there is. -/
theorem softDelete_succeeds_iff (d : Db) (cs : List Call) (t n : Uuid) (r : NodeRow)
    (hr : (serial { d with nodes := ∅ } cs).nodeOf t n = some r) :
    succeeds (serial { d with nodes := ∅ } cs) (.softDelete t n) = true ↔
      r.name.length ≤ 242 ∧
      (∀ p, r.parentId = some p → ¬ ∃ x q, x ≠ n ∧
        (serial { d with nodes := ∅ } cs).nodes.lookup x = some q ∧ q.tenantId = t ∧
        q.parentId = some p ∧ q.name = tombstoneName n r.name ∧ q.isDeleted = true) ∧
      ∀ x q, Relation.ReflTransGen (Parent (serial { d with nodes := ∅ } cs)) x n →
        (serial { d with nodes := ∅ } cs).nodes.lookup x = some q →
        fitsBigint (q.aclEpoch + 1) = true := by
  obtain ⟨htree, hroot⟩ : Sound (serial { d with nodes := ∅ } cs) :=
    sound_serial (sound_empty d) cs
  generalize serial { d with nodes := ∅ } cs = s at hr htree hroot ⊢
  obtain ⟨hlookup, hten⟩ := lookup_of_nodeOf hr
  have hiff : succeeds s (.softDelete t n) = true ↔ Deletable s t n r := by
    rw [succeeds_iff]
    rcases softDeleteNode_cases hr with ⟨hdel, d', hok, -⟩ | ⟨hdel, err, herr⟩
    · exact iff_of_true ⟨_, hok⟩ hdel
    · refine iff_of_false ?_ hdel
      rintro ⟨res, hres⟩
      cases hres.symm.trans herr
  have hslot : slotTaken n (tombstoned n r) s = false ↔ ∀ p, r.parentId = some p →
      ¬ ∃ x q, x ≠ n ∧ s.nodes.lookup x = some q ∧ q.tenantId = t ∧ q.parentId = some p ∧
        q.name = tombstoneName n r.name ∧ q.isDeleted = true := by
    cases hp : r.parentId with
    | none => exact iff_of_true (slotTaken_of_root hroot hlookup hp) nofun
    | some p =>
      have htaken := slotTaken_iff_of_parent (d := s) (n := n) (r := tombstoned n r) (p := p) hp
      rw [← Bool.not_eq_true, htaken, ← hten]
      constructor
      · rintro h p' hp'
        cases hp'
        exact h
      · intro h
        exact h p rfl
  have hepoch : (fitsBigint (r.aclEpoch + 1) = true ∧ BelowFit s t n r.lineagePath) ↔
      ∀ x q, Relation.ReflTransGen (Parent s) x n → s.nodes.lookup x = some q →
        fitsBigint (q.aclEpoch + 1) = true := by
    constructor
    · rintro ⟨hself, hbelow⟩ x q hx hq
      rcases Relation.reflTransGen_iff_eq_or_transGen.1 hx with heq | hx
      · subst heq
        cases hlookup.symm.trans hq
        exact hself
      · exact hbelow x ((mem_descendants_iff htree hr).2 hx) q hq
    · intro h
      refine ⟨h n r .refl hlookup, fun x hx q hq => ?_⟩
      exact h x q ((mem_descendants_iff htree hr).1 hx).to_reflTransGen hq
  rw [hiff, ← hslot, ← hepoch]
  constructor
  · rintro ⟨⟨hname, hself, hslot⟩, hbelow⟩
    exact ⟨by omega, hslot, hself, hbelow⟩
  · rintro ⟨hname, hslot, hself, hbelow⟩
    exact ⟨⟨by omega, hself, hslot⟩, hbelow⟩

/-- The directory `a` can be deleted. -/
theorem softDelete_succeeds_iff_nestedDirectories :
    ∃ r, (serial { tenantOnly with nodes := ∅ } nestedDirectories).nodeOf 1 3 = some r ∧
      r.name.length ≤ 242 := by
  have hsome : ((serial { tenantOnly with nodes := ∅ } nestedDirectories).nodeOf 1 3).isSome =
      true := by decide +kernel
  obtain ⟨r, hr⟩ := Option.isSome_iff_exists.1 hsome
  exact ⟨r, hr, ((softDelete_succeeds_iff tenantOnly nestedDirectories 1 3 r hr).1
    (by decide +kernel)).1⟩

/-- A root, and a file in it whose name has 243 characters. -/
def longName : List Call := [
  .createRoot 2 1 ['r'],
  .place (.insert ⟨3, 1, some 2, List.replicate 243 'a', .file⟩)]

/-- The file is there and live, its name fits the column, and it cannot be deleted. -/
theorem softDelete_fails_longName :
    ∃ r, (serial { tenantOnly with nodes := ∅ } longName).nodeOf 1 3 = some r ∧
      r.isDeleted = false ∧ r.name.length ≤ 255 ∧
      succeeds (serial { tenantOnly with nodes := ∅ } longName) (.softDelete 1 3) = false := by
  have hrow : ((serial { tenantOnly with nodes := ∅ } longName).nodeOf 1 3).map
      (fun r => (r.isDeleted, decide (r.name.length ≤ 255))) = some (false, true) := by
    decide +kernel
  obtain ⟨r, hr, hlive, hlen⟩ := exists_of_map_eq_pair hrow
  exact ⟨r, hr, hlive, of_decide_eq_true hlen, by decide +kernel⟩

end Aegis.Namespace
