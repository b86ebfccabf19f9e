import Aegis.Namespace.Serial

/-!
# What a move comes to

`move_directory` run alone on a table whose paths are exact, followed to its end in every case: the
cycle error if the target is below the source, the name conflict if a live child of the target has
the name, an error of the type of `acl_epoch` or of the index on `lineage_path` if a row of the
subtree would not fit them, and otherwise the subtree in its new place (`moveDirectory_cases`). The
index takes paths of up to 203 labels, as a label of 36 characters is 40 bytes of an entry, which
has 8148 at most; the type `ltree` itself would hold 65535 labels.
-/

namespace Aegis.Namespace

open Db Stmt Txn.Prog

/-- A node that may be moved, and a directory that it may be moved to, as long as no cycle comes of
it: both are of the tenant and live, and the node is not a root. -/
structure Movable (d : Db) (t n p : Uuid) (src dst : NodeRow) : Prop where
  source : d.nodeOf t n = some src
  target : d.nodeOf t p = some dst
  ne : n ≠ p
  notRoot : src.parentId.isSome = true
  live : src.isDeleted = false
  directory : dst.type = .directory
  targetLive : dst.isDeleted = false

/-- Another live child of `p` has the name. -/
def NameTaken (d : Db) (t n p : Uuid) (name : List Char) : Prop :=
  ∃ x r, x ≠ n ∧ d.nodes.lookup x = some r ∧ r.tenantId = t ∧ r.parentId = some p ∧
    r.name = name ∧ r.isDeleted = false

/-- A row that is moved with `src` under `dst` fits its columns: the index on paths takes 203
labels, and the epoch is a `BIGINT`. -/
def Fits (src dst r : NodeRow) : Prop :=
  dst.lineagePath.length + 1 + (r.lineagePath.length - src.lineagePath.length) ≤ 203 ∧
    fitsBigint (r.aclEpoch + 1) = true

/-- The errors for a row that does not fit. -/
def IsLimit (e : Err) : Prop :=
  e = .ltreeTooManyLevels ∨ e = .numericValueOutOfRange ∨ e = .programLimitExceeded

variable {d e : Db} {t n p x : Uuid} {src dst r : NodeRow} {left : List Uuid}

/-! ## Names and slots -/

theorem slotTaken_iff :
    slotTaken n r d = true ↔
      ∃ x r', x ≠ n ∧ d.nodes.lookup x = some r' ∧ sameSlot r r' = true := by
  simp only [slotTaken, List.any_eq_true, Bool.and_eq_true, bne_iff_ne]
  constructor
  · rintro ⟨⟨x, r'⟩, hmem, hne, hsame⟩
    exact ⟨x, r', hne, Table.mem_entries.1 hmem, hsame⟩
  · rintro ⟨x, r', hne, hr', hsame⟩
    exact ⟨⟨x, r'⟩, Table.mem_entries.2 hr', hne, hsame⟩

/-- The slot of a row under `p` is taken by a row with its name and its mark. -/
theorem slotTaken_iff_of_parent (hparent : r.parentId = some p) :
    slotTaken n r d = true ↔
      ∃ x r', x ≠ n ∧ d.nodes.lookup x = some r' ∧ r'.tenantId = r.tenantId ∧
        r'.parentId = some p ∧ r'.name = r.name ∧ r'.isDeleted = r.isDeleted := by
  rw [slotTaken_iff]
  refine exists_congr fun x => exists_congr fun r' => and_congr_right fun _ =>
    and_congr_right fun _ => ?_
  cases hp : r'.parentId with
  | none => simp [sameSlot, hp, hparent]
  | some q =>
    simp only [sameSlot, hp, hparent, Bool.and_eq_true, beq_iff_eq, Option.some.injEq]
    constructor
    · rintro ⟨⟨⟨hten, hq⟩, hname⟩, hdel⟩
      exact ⟨hten.symm, hq.symm, hname.symm, hdel.symm⟩
    · rintro ⟨hten, hq, hname, hdel⟩
      exact ⟨⟨⟨hten.symm, hq.symm⟩, hname.symm⟩, hdel.symm⟩

/-- A live row finds its slot under `p` taken just if its name is. -/
theorem slotTaken_iff_nameTaken (hten : r.tenantId = t) (hparent : r.parentId = some p)
    (hlive : r.isDeleted = false) :
    slotTaken n r d = true ↔ NameTaken d t n p r.name := by
  rw [slotTaken_iff_of_parent hparent, hten, hlive]
  rfl

/-- The query of the name-collision check. -/
theorem nameTaken_iff :
    (d.nodes.entries.any fun e => e.2.tenantId == t && e.2.parentId == some p &&
      e.2.name == name && !e.2.isDeleted && e.1 != n) = true ↔ NameTaken d t n p name := by
  simp only [List.any_eq_true, Bool.and_eq_true, beq_iff_eq, bne_iff_ne, Bool.not_eq_true']
  constructor
  · rintro ⟨⟨x, r⟩, hmem, ⟨⟨⟨hten, hp⟩, hname⟩, hdel⟩, hne⟩
    exact ⟨x, r, hne, Table.mem_entries.1 hmem, hten, hp, hname, hdel⟩
  · rintro ⟨x, r, hne, hr, hten, hp, hname, hdel⟩
    exact ⟨⟨x, r⟩, Table.mem_entries.2 hr, ⟨⟨⟨hten, hp⟩, hname⟩, hdel⟩, hne⟩

/-! ## Entries in the index -/

/-- A path of node labels. -/
theorem gistTupleSize_eq {path : LTree} (h : ∀ l ∈ path, l.length = 36) :
    gistTupleSize path = 24 + 40 * path.length := by
  have hsizes : path.map (fun l => (l.length + 9) / 8 * 8) = List.replicate path.length 40 := by
    refine List.eq_replicate_iff.2 ⟨List.length_map _, fun k hk => ?_⟩
    obtain ⟨l, hl, rfl⟩ := List.mem_map.1 hk
    rw [h l hl]
  rw [gistTupleSize, hsizes, List.sum_replicate_nat, Nat.mul_comm]

/-- A path that the index takes is an `ltree`. -/
theorem length_le_gistTupleSize (path : LTree) : path.length ≤ gistTupleSize path := by
  rw [gistTupleSize, ← List.length_map (fun l => (l.length + 9) / 8 * 8)]
  refine le_trans (List.length_le_sum_of_one_le _ fun k hk => ?_) (Nat.le_add_left _ _)
  obtain ⟨l, -, rfl⟩ := List.mem_map.1 hk
  omega

/-- Exact paths consist of node labels. -/
theorem length_label (hpaths : Forest.Lined Uuid.nodeLabel d.forest)
    (hr : d.nodes.lookup x = some r) (hl : l ∈ r.lineagePath) : l.length = 36 := by
  obtain ⟨u, rfl, -⟩ := hpaths.exists_of_mem (forest_of_lookup hr) hl
  exact Uuid.length_nodeLabel u

/-- A path after the move is small enough for the index if it has at most 203 labels. -/
theorem gistTupleSize_remapped (hpaths : Forest.Lined Uuid.nodeLabel d.forest)
    (hdst : d.nodes.lookup p = some dst) (hr : d.nodes.lookup x = some r) :
    gistTupleSize (dst.lineagePath ++ [n.nodeLabel] ++ r.lineagePath.drop k) ≤ 8148 ↔
      dst.lineagePath.length + 1 + (r.lineagePath.length - k) ≤ 203 := by
  have hlabels : ∀ l ∈ dst.lineagePath ++ [n.nodeLabel] ++ r.lineagePath.drop k,
      l.length = 36 := by
    intro l hl
    rcases List.mem_append.1 hl with hl | hl
    · rcases List.mem_append.1 hl with hl | hl
      · exact length_label hpaths hdst hl
      · rw [List.mem_singleton.1 hl, Uuid.length_nodeLabel]
    · exact length_label hpaths hr (List.mem_of_mem_drop hl)
  rw [gistTupleSize_eq hlabels, List.length_append, List.length_append, List.length_singleton,
    List.length_drop]
  omega

/-! ## One row -/

theorem ltreeConcat_alone (a b : LTree) (e : Db) :
    (ltreeConcat a b).alone e =
      if a.length + b.length ≤ 65535 then .ok (a ++ b, e) else .error .ltreeTooManyLevels := by
  simp only [ltreeConcat, bind_eq, alone_check_bind, decide_eq_true_eq]
  rfl

/-- The new path of a row: that of the target, the label of the source, and what was below it. -/
theorem remappedPath_alone (hself : x = n → r.lineagePath = sp)
    (hbelow : x ≠ n → sp.length < r.lineagePath.length)
    (hpath : path = dp ++ [n.nodeLabel] ++ r.lineagePath.drop sp.length) (e : Db) :
    (remappedPath n sp dp x r).alone e =
      if path.length ≤ 65535 then .ok (path, e) else .error .ltreeTooManyLevels := by
  unfold remappedPath
  split
  · next hx =>
    rw [hpath, hself hx, List.drop_length, List.append_nil, ltreeConcat_alone, List.length_append]
  · next hx =>
    have hsub : (subpath r.lineagePath sp.length).alone e =
        .ok (r.lineagePath.drop sp.length, e) := by
      rw [subpath, bind_eq, alone_check_bind, if_pos (decide_eq_true (hbelow hx))]
      rfl
    have hcat := ltreeConcat_alone dp [n.nodeLabel] e
    split at hcat
    · rw [bind_eq, alone_bind_of_ok hcat, bind_eq, alone_bind_of_ok hsub, ltreeConcat_alone,
        ← List.length_append, ← hpath]
    · next htop =>
      rw [bind_eq, alone_bind_of_error hcat, if_neg]
      rw [hpath, List.length_append, List.length_append]
      omega

/-- The row of the target as the trigger finds it. -/
structure Receives (e : Db) (t p : Uuid) (dst : NodeRow) : Prop where
  lookup : e.nodes.lookup p = some dst
  tenant : dst.tenantId = t
  directory : dst.type = .directory
  live : dst.isDeleted = false

/-- The row that the UPDATE hands to the trigger. -/
def proposed (n p : Uuid) (path : LTree) (x : Uuid) (r : NodeRow) : NodeRow :=
  { r with parentId := if x = n then some p else r.parentId, lineagePath := path }

/-- The trigger settles on the path that the UPDATE has computed. -/
theorem lineageGuardUpdate_alone (hp : Receives e t p dst) (hten : r.tenantId = t)
    (hpath : x = n → path = dst.lineagePath ++ [n.nodeLabel])
    (hfit : dst.lineagePath.length + 1 ≤ 65535) :
    (lineageGuardUpdate true x r (proposed n p path x r)).alone e = .ok (path, e) := by
  unfold lineageGuardUpdate
  by_cases hsame : (proposed n p path x r).parentId = r.parentId
  · rw [if_pos hsame, bind_eq, alone_check_bind, Bool.or_true, if_pos rfl]
    rfl
  · have hx : x = n := by
      by_contra hx
      exact hsame (if_neg hx)
    have hparent : (proposed n p path x r).parentId = some p := if_pos hx
    have hcat : (ltreeConcat dst.lineagePath [n.nodeLabel]).alone e = .ok (path, e) := by
      rw [ltreeConcat_alone, hpath hx]
      exact if_pos hfit
    have hvalid : (dst.tenantId == r.tenantId && dst.type == .directory && !dst.isDeleted) =
        true := by
      simp [hp.tenant, hten, hp.directory, hp.live]
    rw [if_neg hsame, bind_eq, alone_check_bind, if_pos rfl, hparent]
    dsimp only
    rw [bind_eq, readLineage, alone_stmt_bind, hp.lookup]
    dsimp only
    rw [bind_eq, alone_check_bind]
    refine (if_pos hvalid).trans ?_
    rw [hx]
    exact hcat

/-- The write of a row whose slot is free. -/
theorem writeLineage_alone (hslot : x = n → slotTaken n new e = false) :
    (writeLineage n p x new).alone e =
      if gistTupleSize new.lineagePath ≤ 8148 then
        .ok ((), setLineage x (if x = n then some p else none) new.lineagePath e)
      else .error .programLimitExceeded := by
  unfold writeLineage
  by_cases hx : x = n
  · rw [if_pos hx, if_pos hx, bind_eq, alone_stmt_bind, bind_eq, alone_check_bind, hx, hslot hx,
      Bool.not_false, if_pos rfl, indexLineage, alone_check]
    simp only [decide_eq_true_eq]
  · rw [if_neg hx, if_neg hx, bind_eq, alone_stmt_bind, indexLineage, alone_check]
    simp only [decide_eq_true_eq]

section Row

variable (hp : Receives e t p dst) (hr : e.nodes.lookup x = some r) (hten : r.tenantId = t)
  (hpre : src.lineagePath <+: r.lineagePath) (hself : x = n → r.lineagePath = src.lineagePath)
  (hbelow : x ≠ n → src.lineagePath.length < r.lineagePath.length)
include hp hr hten hpre hself hbelow

variable (hpath : path = dst.lineagePath ++ [n.nodeLabel] ++
    r.lineagePath.drop src.lineagePath.length)
  (hslot : x = n → slotTaken n (proposed n p path x r) e = false)
include hpath hslot

/-- One round of the UPDATE. -/
theorem remapRow_alone :
    (remapRow t n p src.lineagePath dst.lineagePath x).alone e =
      if path.length ≤ 65535 then
        if fitsBigint (r.aclEpoch + 1) then
          if gistTupleSize path ≤ 8148 then
            .ok (some ((if x = n then some p else r.parentId) != r.parentId),
              setLineage x (if x = n then some p else none) path e)
          else .error .programLimitExceeded
        else .error .numericValueOutOfRange
      else .error .ltreeTooManyLevels := by
  have hpicked : (r.tenantId == t && (x == n || r.lineagePath.descendantOf src.lineagePath)) =
      true := by
    simp [hten, LTree.descendantOf_iff, hpre]
  have hmoved : x = n → path = dst.lineagePath ++ [n.nodeLabel] := by
    intro hx
    rw [hpath, hself hx, List.drop_length, List.append_nil]
  have hnew := remappedPath_alone hself hbelow hpath e
  rw [remapRow, bind_eq, forUpdate, alone_bind_of_ok (alone_acquire _ _), hr]
  dsimp only
  rw [if_pos hpicked, bind_eq]
  split at hnew
  · next hlen =>
    have htop : dst.lineagePath.length + 1 ≤ 65535 := by
      simp only [hpath, List.length_append, List.length_singleton] at hlen
      omega
    rw [alone_bind_of_ok hnew, if_pos hlen]
    refine (alone_bind_of_ok (lineageGuardUpdate_alone hp hten hmoved htop)).trans ?_
    rw [bind_eq, alone_check_bind]
    refine if_congr Iff.rfl ?_ rfl
    have hwrite := writeLineage_alone (p := p) hslot
    split at hwrite
    · next hfit => exact (alone_bind_of_ok hwrite).trans (if_pos hfit).symm
    · next hfit => exact (alone_bind_of_error hwrite).trans (if_neg hfit).symm
  · next hlen => rw [alone_bind_of_error hnew, if_neg hlen]

variable (hsize : gistTupleSize path ≤ 8148 ↔
  dst.lineagePath.length + 1 + (r.lineagePath.length - src.lineagePath.length) ≤ 203)
include hsize

/-- **A row that fits** is rewritten. -/
theorem remapRow_fits (hfit : Fits src dst r) :
    ∃ b, (remapRow t n p src.lineagePath dst.lineagePath x).alone e =
      .ok (some b, setLineage x (if x = n then some p else none) path e) := by
  have hsmall := hsize.2 hfit.1
  have hlevels := length_le_gistTupleSize path
  rw [remapRow_alone hp hr hten hpre hself hbelow hpath hslot, if_pos (by omega), if_pos hfit.2,
    if_pos hsmall]
  exact ⟨_, rfl⟩

/-- **A row that does not fit** raises an error of its columns. -/
theorem remapRow_unfit (hfit : ¬ Fits src dst r) :
    ∃ err, (remapRow t n p src.lineagePath dst.lineagePath x).alone e = .error err ∧
      IsLimit err := by
  rw [remapRow_alone hp hr hten hpre hself hbelow hpath hslot]
  split
  · split
    · next hepoch =>
      rw [if_neg fun hsmall => hfit ⟨hsize.1 hsmall, hepoch⟩]
      exact ⟨_, rfl, .inr (.inr rfl)⟩
    · exact ⟨_, rfl, .inr (.inl rfl)⟩
  · exact ⟨_, rfl, .inl rfl⟩

end Row

/-! ## The rows of the subtree -/

/-- The UPDATE on its way: the rows in `left` are still to be rewritten, the others of the subtree
are. -/
structure Remapping (d : Db) (t n p : Uuid) (src dst : NodeRow) (left : List Uuid) (e : Db) :
    Prop where
  nodup : left.Nodup
  picked : ∀ x ∈ left, x ∈ d.subtree t n src.lineagePath
  progress : ∀ x, e.nodes.lookup x =
    if x ∈ d.subtree t n src.lineagePath ∧ x ∉ left then
      (d.nodes.lookup x).map (remapped n p src.lineagePath dst.lineagePath x)
    else d.nodes.lookup x

section Subtree

variable (hpaths : Forest.Lined Uuid.nodeLabel d.forest) (hm : Movable d t n p src dst)

include hm in
theorem mem_subtree :
    x ∈ d.subtree t n src.lineagePath ↔ ∃ r, d.nodes.lookup x = some r ∧ r.tenantId = t ∧
      src.lineagePath <+: r.lineagePath := by
  obtain ⟨hsrc, -⟩ := lookup_of_nodeOf hm.source
  simp only [Db.subtree, Table.mem_keysWhere, Bool.and_eq_true, Bool.or_eq_true, beq_iff_eq,
    LTree.descendantOf_iff]
  refine exists_congr fun r => and_congr_right fun hr => and_congr_right fun _ => ?_
  refine or_iff_right_of_imp ?_
  rintro rfl
  cases hsrc.symm.trans hr
  exact List.prefix_rfl

include hm in
theorem source_mem_subtree : n ∈ d.subtree t n src.lineagePath := by
  obtain ⟨hsrc, hten⟩ := lookup_of_nodeOf hm.source
  exact (mem_subtree hm).2 ⟨src, hsrc, hten, List.prefix_rfl⟩

include hpaths hm in
/-- What is known of a row of the subtree. -/
theorem row_of_subtree (hx : x ∈ d.subtree t n src.lineagePath) :
    ∃ r, d.nodes.lookup x = some r ∧ r.tenantId = t ∧ src.lineagePath <+: r.lineagePath ∧
      (x = n → r = src) ∧ (x ≠ n → src.lineagePath.length < r.lineagePath.length) := by
  obtain ⟨hsrc, -⟩ := lookup_of_nodeOf hm.source
  obtain ⟨r, hr, hten, hpre⟩ := (mem_subtree hm).1 hx
  refine ⟨r, hr, hten, hpre, ?_, fun hne => ?_⟩
  · rintro rfl
    exact (Option.some.inj (hsrc.symm.trans hr)).symm
  · obtain ⟨q, o, path, -, -, hpath, hpre'⟩ := hpaths.isPrefix_parent Uuid.nodeLabel_injective
      (forest_of_lookup hsrc) (forest_of_lookup hr) hpre hne
    rw [hpath, List.length_append]
    exact Nat.lt_succ_of_le hpre'.length_le

include hm in
/-- The target is not in the subtree, so it is as it was. -/
theorem Remapping.receives (h : Remapping d t n p src dst left e)
    (hout : ¬ src.lineagePath <+: dst.lineagePath) : Receives e t p dst := by
  obtain ⟨hdst, hten⟩ := lookup_of_nodeOf hm.target
  refine ⟨?_, hten, hm.directory, hm.targetLive⟩
  rw [h.progress, if_neg, hdst]
  rintro ⟨hmem, -⟩
  obtain ⟨r, hr, -, hpre⟩ := (mem_subtree hm).1 hmem
  cases hdst.symm.trans hr
  exact hout hpre

/-- The rewritten rows take no other slot. -/
theorem Remapping.slotTaken (h : Remapping d t n p src dst left e)
    (hfree : slotTaken n new d = false) : Db.slotTaken n new e = false := by
  rw [← Bool.not_eq_true] at hfree ⊢
  refine fun htaken => hfree ?_
  obtain ⟨x, r', hne, hr', hsame⟩ := slotTaken_iff.1 htaken
  rw [h.progress] at hr'
  split at hr'
  · obtain ⟨r, hr, rfl⟩ := Option.map_eq_some_iff.1 hr'
    refine slotTaken_iff.2 ⟨x, r, hne, hr, ?_⟩
    rw [← hsame, remapped, if_neg hne]
    rfl
  · exact slotTaken_iff.2 ⟨x, r', hne, hr', hsame⟩

/-- A row that is still to be rewritten is as it was. -/
theorem Remapping.pending (h : Remapping d t n p src dst (x :: left) e) :
    e.nodes.lookup x = d.nodes.lookup x := by
  rw [h.progress]
  exact if_neg fun hc => hc.2 List.mem_cons_self

/-- One more row is rewritten. -/
theorem Remapping.land (h : Remapping d t n p src dst (x :: left) e)
    (hr : d.nodes.lookup x = some r) :
    Remapping d t n p src dst left (setLineage x (if x = n then some p else none)
      (dst.lineagePath ++ [n.nodeLabel] ++ r.lineagePath.drop src.lineagePath.length) e) := by
  obtain ⟨hnot, hnodup⟩ := List.nodup_cons.1 h.nodup
  refine ⟨hnodup, fun y hy => h.picked y (List.mem_cons_of_mem x hy), fun y => ?_⟩
  have hsub := h.picked x List.mem_cons_self
  have hrow : ∀ r : NodeRow, (if x = n then some p else none).or r.parentId =
      if x = n then some p else r.parentId := by
    intro r
    split
    · rfl
    · rfl
  rw [lookup_setLineage]
  by_cases hy : y = x
  · rw [hy, if_pos rfl, h.pending, hr, Option.map_some, hrow]
    exact (if_pos ⟨hsub, hnot⟩).symm
  · rw [if_neg hy, h.progress]
    simp only [hy, List.mem_cons, false_or]

include hpaths hm in
/-- **The UPDATE** rewrites the subtree if all of its rows fit, and raises an error of a column
otherwise. -/
theorem collect_remapRow (hout : ¬ src.lineagePath <+: dst.lineagePath)
    (hfree : ¬ NameTaken d t n p src.name) :
    ((∀ x ∈ d.subtree t n src.lineagePath, ∀ r, d.nodes.lookup x = some r → Fits src dst r) ∧
      ∃ moved e, (collect (d.subtree t n src.lineagePath)
          (remapRow t n p src.lineagePath dst.lineagePath)).alone d = .ok (moved, e) ∧
        moved.length = (d.subtree t n src.lineagePath).length ∧
        Remapping d t n p src dst [] e) ∨
    (¬ ∀ x ∈ d.subtree t n src.lineagePath, ∀ r, d.nodes.lookup x = some r → Fits src dst r) ∧
      ∃ err, (collect (d.subtree t n src.lineagePath)
          (remapRow t n p src.lineagePath dst.lineagePath)).alone d = .error err ∧
        IsLimit err := by
  obtain ⟨-, hsten⟩ := lookup_of_nodeOf hm.source
  obtain ⟨hdst, -⟩ := lookup_of_nodeOf hm.target
  have hslot : ∀ {x r left e}, Remapping d t n p src dst (x :: left) e → (x = n → r = src) →
      ∀ path, x = n → slotTaken n (proposed n p path x r) e = false := by
    intro x r left e h hself path hx
    rw [hself hx]
    refine h.slotTaken ?_
    rw [← Bool.not_eq_true,
      slotTaken_iff_nameTaken (r := proposed n p path x src) hsten (if_pos hx) hm.live]
    exact hfree
  refine alone_collect (I := Remapping d t n p src dst) ?_ ?_ ?_
  · intro x left e h hfit
    obtain ⟨r, hr, hten, hpre, hself, hbelow⟩ := row_of_subtree hpaths hm
      (h.picked x List.mem_cons_self)
    obtain ⟨b, hb⟩ := remapRow_fits (h.receives hm hout) (h.pending.trans hr) hten hpre
      (fun hx => by rw [hself hx]) hbelow rfl (hslot h hself _)
      (gistTupleSize_remapped hpaths hdst hr) (hfit r hr)
    exact ⟨b, _, hb, h.land hr⟩
  · intro x left e h hfit
    obtain ⟨r, hr, hten, hpre, hself, hbelow⟩ := row_of_subtree hpaths hm
      (h.picked x List.mem_cons_self)
    refine remapRow_unfit (h.receives hm hout) (h.pending.trans hr) hten hpre
      (fun hx => by rw [hself hx]) hbelow rfl (hslot h hself _)
      (gistTupleSize_remapped hpaths hdst hr) ?_
    intro hr'
    refine hfit fun r' hlookup => ?_
    cases hr.symm.trans hlookup
    exact hr'
  · exact ⟨Table.nodup_keysWhere _ _, fun _ hx => hx, fun x => (if_neg fun hc => hc.2 hc.1).symm⟩

end Subtree

/-! ## The whole call -/

/-- The locks change nothing. -/
theorem lockEndpoints_alone (t n p : Uuid) (d : Db) :
    (lockEndpoints t n p).alone d = .ok ((), d) := by
  rw [lockEndpoints, bind_eq, alone_read_bind]
  exact alone_forEach fun x _ => rfl

/-- `move_directory` up to the cycle check and the name check. -/
theorem moveDirectory_alone (hm : Movable d t n p src dst) :
    (moveDirectory t (some n) (some p)).alone d =
      if dst.lineagePath.descendantOf src.lineagePath then .error .cycle
      else if d.nodes.entries.any fun e => e.2.tenantId == t && e.2.parentId == some p &&
          e.2.name == src.name && !e.2.isDeleted && e.1 != n then .error (.nameConflict src.name)
      else (remapSubtree id t n p src.lineagePath dst.lineagePath).alone d := by
  obtain ⟨hsrc, hsten⟩ := lookup_of_nodeOf hm.source
  obtain ⟨hdst, hdten⟩ := lookup_of_nodeOf hm.target
  have hfound : (hasNodeOf t n d && hasNodeOf t p d) = true := by
    simp [hasNodeOf, hsrc, hdst, hsten, hdten]
  rw [moveDirectory, moveScanning, if_neg hm.ne, moveNode, bind_eq,
    alone_bind_of_ok (lockEndpoints_alone t n p d), bind_eq, alone_read_bind, bind_eq,
    alone_check_bind, if_pos hfound, bind_eq, readLineage, alone_stmt_bind, hm.source]
  dsimp only
  rw [bind_eq, alone_check_bind, if_pos hm.notRoot, bind_eq, alone_check_bind,
    if_pos (by rw [hm.live]; rfl), moveUnder, bind_eq, readLineage, alone_stmt_bind, hm.target]
  dsimp only
  rw [bind_eq, alone_check_bind, if_pos (by rw [hm.directory]; rfl), bind_eq, alone_check_bind,
    if_pos (by rw [hm.targetLive]; rfl), bind_eq, alone_check_bind]
  cases dst.lineagePath.descendantOf src.lineagePath with
  | true => rfl
  | false =>
    rw [Bool.not_false, if_pos rfl, if_neg Bool.false_ne_true, bind_eq, alone_read_bind, bind_eq,
      alone_check_bind]
    cases d.nodes.entries.any fun e => e.2.tenantId == t && e.2.parentId == some p &&
        e.2.name == src.name && !e.2.isDeleted && e.1 != n with
    | true => rfl
    | false => rfl

/-- The rows of the subtree of `n` fit their columns after the move. -/
def SubtreeFits (d : Db) (t n : Uuid) (src dst : NodeRow) : Prop :=
  ∀ x r, d.nodes.lookup x = some r → r.tenantId = t → Relation.ReflTransGen (Parent d) x n →
    Fits src dst r

section Whole

variable (hpaths : Forest.Lined Uuid.nodeLabel d.forest) (hm : Movable d t n p src dst)
include hpaths hm

/-- The subtree by pointers is the subtree by paths. -/
theorem subtreeFits_iff :
    SubtreeFits d t n src dst ↔
      ∀ x ∈ d.subtree t n src.lineagePath, ∀ r, d.nodes.lookup x = some r → Fits src dst r := by
  obtain ⟨hsrc, -⟩ := lookup_of_nodeOf hm.source
  have hreach : ∀ {x r}, d.nodes.lookup x = some r →
      (src.lineagePath <+: r.lineagePath ↔ Relation.ReflTransGen (Parent d) x n) := by
    intro x r hr
    rw [← child_forest]
    exact hpaths.isPrefix_iff Uuid.nodeLabel_injective (forest_of_lookup hr) (forest_of_lookup hsrc)
  constructor
  · intro h x hx r hr
    obtain ⟨r', hr', hten, hpre⟩ := (mem_subtree hm).1 hx
    cases hr.symm.trans hr'
    exact h x r hr hten ((hreach hr).1 hpre)
  · intro h x r hr hten hx
    exact h x ((mem_subtree hm).2 ⟨r, hr, hten, (hreach hr).2 hx⟩) r hr

/-- The target is below the source by paths just if it is by pointers. -/
theorem descendantOf_iff_reaches :
    dst.lineagePath.descendantOf src.lineagePath = true ↔
      Relation.ReflTransGen (Parent d) p n := by
  obtain ⟨hsrc, -⟩ := lookup_of_nodeOf hm.source
  obtain ⟨hdst, -⟩ := lookup_of_nodeOf hm.target
  rw [LTree.descendantOf_iff, ← child_forest]
  exact hpaths.isPrefix_iff Uuid.nodeLabel_injective (forest_of_lookup hdst) (forest_of_lookup hsrc)

/-- **Step 3** of `move_directory`, when it is reached. -/
theorem remapSubtree_cases (hout : ¬ Relation.ReflTransGen (Parent d) p n)
    (hfree : ¬ NameTaken d t n p src.name) :
    (SubtreeFits d t n src dst ∧
      ∃ d', (remapSubtree id t n p src.lineagePath dst.lineagePath).alone d = .ok ((), d') ∧
        Remapping d t n p src dst [] d') ∨
    ¬ SubtreeFits d t n src dst ∧
      ∃ err, (remapSubtree id t n p src.lineagePath dst.lineagePath).alone d = .error err ∧
        IsLimit err := by
  rw [← descendantOf_iff_reaches hpaths hm, LTree.descendantOf_iff] at hout
  rw [subtreeFits_iff hpaths hm, remapSubtree, bind_eq, alone_stmt_bind]
  rcases collect_remapRow hpaths hm hout hfree with
    ⟨hfits, moved, d', hmoved, hlen, hd'⟩ | ⟨hfits, err, herr, hlimit⟩
  · refine .inl ⟨hfits, d', ?_, hd'⟩
    -- the new parent is still there, and the source is among the moved rows
    have hparent : (referencesParent (some p)).alone d' = .ok ((), d') := by
      have hnode : hasNode p d' = true := by rw [hasNode, (hd'.receives hm hout).lookup]; rfl
      rw [referencesParent, references_alone, if_pos hnode]
    have hsome : (!moved.isEmpty) = true := by
      cases moved with
      | nil =>
        have hnil := List.length_eq_zero_iff.1 hlen.symm
        exact absurd hnil (List.ne_nil_of_mem (source_mem_subtree hm))
      | cons b moved => rfl
    rw [bind_eq, id, alone_bind_of_ok hmoved, bind_eq,
      alone_bind_of_ok (alone_forEach fun _ _ => hparent), alone_check, if_pos hsome]
  · exact .inr ⟨hfits, err, alone_bind_of_error herr, hlimit⟩

/-- **The cases of a move.** -/
theorem moveDirectory_cases :
    (Relation.ReflTransGen (Parent d) p n ∧
      (moveDirectory t (some n) (some p)).alone d = .error .cycle) ∨
    (¬ Relation.ReflTransGen (Parent d) p n ∧ NameTaken d t n p src.name ∧
      (moveDirectory t (some n) (some p)).alone d = .error (.nameConflict src.name)) ∨
    (¬ Relation.ReflTransGen (Parent d) p n ∧ ¬ NameTaken d t n p src.name ∧
      ¬ SubtreeFits d t n src dst ∧
      ∃ err, (moveDirectory t (some n) (some p)).alone d = .error err ∧ IsLimit err) ∨
    (¬ Relation.ReflTransGen (Parent d) p n ∧ ¬ NameTaken d t n p src.name ∧
      SubtreeFits d t n src dst ∧
      ∃ d', (moveDirectory t (some n) (some p)).alone d = .ok ((), d') ∧
        Remapping d t n p src dst [] d') := by
  rw [moveDirectory_alone hm]
  by_cases hcycle : Relation.ReflTransGen (Parent d) p n
  · exact .inl ⟨hcycle, if_pos ((descendantOf_iff_reaches hpaths hm).2 hcycle)⟩
  · rw [if_neg ((descendantOf_iff_reaches hpaths hm).not.2 hcycle)]
    by_cases htaken : NameTaken d t n p src.name
    · exact .inr (.inl ⟨hcycle, htaken, if_pos (nameTaken_iff.2 htaken)⟩)
    · rw [if_neg (nameTaken_iff.not.2 htaken)]
      rcases remapSubtree_cases hpaths hm hcycle htaken with ⟨hfits, h⟩ | ⟨hfits, h⟩
      · exact .inr (.inr (.inr ⟨hcycle, htaken, hfits, h⟩))
      · exact .inr (.inr (.inl ⟨hcycle, htaken, hfits, h⟩))

end Whole

/-- In the rewritten table the source has the new parent, and every other row its old one. -/
theorem Remapping.parent (hm : Movable d t n p src dst) (h : Remapping d t n p src dst [] e)
    (hy : Parent e x y) : x = n ∧ y = p ∨ x ≠ n ∧ Parent d x y := by
  obtain ⟨r', hr', hparent⟩ := hy
  rw [h.progress] at hr'
  by_cases hx : x = n
  · refine .inl ⟨hx, ?_⟩
    rw [hx, if_pos ⟨source_mem_subtree hm, List.not_mem_nil⟩] at hr'
    obtain ⟨r, -, rfl⟩ := Option.map_eq_some_iff.1 hr'
    rw [remapped, if_pos rfl] at hparent
    exact (Option.some.inj hparent).symm
  · refine .inr ⟨hx, ?_⟩
    split at hr'
    · obtain ⟨r, hr, rfl⟩ := Option.map_eq_some_iff.1 hr'
      rw [remapped, if_neg hx] at hparent
      exact ⟨r, hr, hparent⟩
    · exact ⟨r', hr', hparent⟩

/-- What a move that succeeds has found. -/
theorem movable_of_ok {n p : Option Uuid} (h : (moveDirectory t n p).alone d = .ok ((), d')) :
    ∃ n' p' src dst, n = some n' ∧ p = some p' ∧ Movable d t n' p' src dst := by
  unfold moveDirectory moveScanning at h
  split at h
  · next n' p' =>
    rw [alone_ite] at h
    split at h
    · cases h
    · next hne =>
      rw [moveNode, bind_eq, alone_bind_of_ok (lockEndpoints_alone t n' p' d), bind_eq,
        alone_read_bind] at h
      obtain ⟨-, h⟩ := alone_check_bind_ok h
      rw [bind_eq, readLineage, alone_stmt_bind] at h
      split at h
      · cases h
      · next src hsrc =>
        obtain ⟨hroot, h⟩ := alone_check_bind_ok h
        obtain ⟨hlive, h⟩ := alone_check_bind_ok h
        rw [moveUnder, bind_eq, readLineage, alone_stmt_bind] at h
        split at h
        · cases h
        · next dst hdst =>
          obtain ⟨hdir, h⟩ := alone_check_bind_ok h
          obtain ⟨hdlive, -⟩ := alone_check_bind_ok h
          exact ⟨n', p', src, dst, rfl, rfl, hsrc, hdst, hne, hroot, by simpa using hlive,
            by simpa using hdir, by simpa using hdlive⟩
  · cases h

/-- A change of no other table than `namespace_nodes`. -/
def NodesOnly (d d' : Db) : Prop := d' = { d with nodes := d'.nodes }

theorem NodesOnly.refl (d : Db) : NodesOnly d d := rfl

theorem NodesOnly.trans (hab : NodesOnly a b) (hbc : NodesOnly b c) : NodesOnly a c := by
  rw [NodesOnly, hbc, hab]

theorem NodesOnly.tenants (h : NodesOnly d d') : d'.tenants = d.tenants := by rw [h]

theorem moveDirectory_nodesOnly {n p : Option Uuid} : (moveDirectory t n p).Within NodesOnly :=
  moveDirectory_within NodesOnly.refl fun _ _ _ _ => rfl

/-- The new path of a row, read off its old one: what came before the label of the source is
replaced by the path of the target. -/
theorem remapped_eq_dropWhile (hpaths : Forest.Lined Uuid.nodeLabel d.forest)
    (hsrc : d.nodes.lookup n = some src) (hpre : src.lineagePath <+: r.lineagePath) (dp : LTree) :
    dp ++ [n.nodeLabel] ++ r.lineagePath.drop src.lineagePath.length =
      dp ++ r.lineagePath.dropWhile (· != n.nodeLabel) := by
  obtain ⟨init, hinit, hnot⟩ := hpaths.last_notMem Uuid.nodeLabel_injective (forest_of_lookup hsrc)
  obtain ⟨below, hbelow⟩ := hpre
  have hskip : (init ++ ([n.nodeLabel] ++ below)).dropWhile (· != n.nodeLabel) =
      [n.nodeLabel] ++ below := by
    rw [List.dropWhile_append_of_pos, List.singleton_append, List.dropWhile_cons_of_neg (by simp)]
    intro a ha
    exact bne_iff_ne.2 fun heq => hnot (heq ▸ ha)
  rw [← hbelow, List.drop_left, hinit, List.append_assoc init, hskip, List.append_assoc]

/-- The row of a subtree that is moved to `p`, whose path is `dp`. -/
def moved (n p : Uuid) (dp : LTree) (x : Uuid) (r : NodeRow) : NodeRow :=
  { r with
    parentId := if x = n then some p else r.parentId
    lineagePath := dp ++ r.lineagePath.dropWhile (· != n.nodeLabel)
    aclEpoch := r.aclEpoch + 1 }

/-- The rewritten table, with the subtree by pointers. -/
theorem Remapping.frame (htree : Tree d) (hm : Movable d t n p src dst)
    (h : Remapping d t n p src dst [] e) (x : Uuid) :
    (Relation.ReflTransGen (Parent d) x n → ∃ r, d.nodes.lookup x = some r ∧
      e.nodes.lookup x = some (moved n p dst.lineagePath x r)) ∧
    (¬ Relation.ReflTransGen (Parent d) x n → e.nodes.lookup x = d.nodes.lookup x) := by
  obtain ⟨hsrc, hten⟩ := lookup_of_nodeOf hm.source
  have hreach : ∀ {r}, d.nodes.lookup x = some r →
      (src.lineagePath <+: r.lineagePath ↔ Relation.ReflTransGen (Parent d) x n) := by
    intro r hr
    rw [← child_forest]
    exact htree.lined.isPrefix_iff Uuid.nodeLabel_injective (forest_of_lookup hr)
      (forest_of_lookup hsrc)
  constructor
  · intro hx
    have hrow : ∃ r, d.nodes.lookup x = some r := by
      rcases Relation.ReflTransGen.cases_head hx with rfl | ⟨y, ⟨r, hr, -⟩, -⟩
      · exact ⟨src, hsrc⟩
      · exact ⟨r, hr⟩
    obtain ⟨r, hr⟩ := hrow
    have hpre := (hreach hr).2 hx
    have hmem := (mem_subtree hm).2
      ⟨r, hr, (htree.tenant_of_subtree hsrc hr hpre).trans hten, hpre⟩
    refine ⟨r, hr, ?_⟩
    rw [h.progress, if_pos ⟨hmem, List.not_mem_nil⟩, hr, Option.map_some, remapped,
      remapped_eq_dropWhile htree.lined hsrc hpre]
    rfl
  · intro hx
    rw [h.progress, if_neg]
    rintro ⟨hmem, -⟩
    obtain ⟨r, hr, -, hpre⟩ := (mem_subtree hm).1 hmem
    exact hx ((hreach hr).1 hpre)

/-- **The frame of a move.** In a tree, a move that succeeds rewrites the rows of the node and its
descendants as `moved` says, and leaves every other row and every other table; a move that is
rejected leaves everything. -/
theorem moveDirectory_frame (d : Db) (hd : Tree d) (t : Uuid) (n p : Option Uuid) :
    (∀ d', (moveDirectory t n p).alone d = .ok ((), d') →
      ∃ n' p' dst, n = some n' ∧ p = some p' ∧ d.nodeOf t p' = some dst ∧
        (∀ x, (Relation.ReflTransGen (Parent d) x n' → ∃ r, d.nodes.lookup x = some r ∧
            d'.nodes.lookup x = some (moved n' p' dst.lineagePath x r)) ∧
          (¬ Relation.ReflTransGen (Parent d) x n' →
            d'.nodes.lookup x = d.nodes.lookup x)) ∧
        d' = { d with nodes := d'.nodes }) ∧
    ∀ err, (moveDirectory t n p).alone d = .error err → after d (.place (.move t n p)) = d := by
  constructor
  · intro d' h
    obtain ⟨n', p', src, dst, rfl, rfl, hm⟩ := movable_of_ok h
    refine ⟨n', p', dst, rfl, rfl, hm.target, ?_,
      moveDirectory_nodesOnly.alone NodesOnly.refl NodesOnly.trans h⟩
    rcases moveDirectory_cases hd.lined hm with ⟨-, h'⟩ | ⟨-, -, h'⟩ | ⟨-, -, -, err, h', -⟩ |
      ⟨-, -, -, e, h', he⟩
    · cases h.symm.trans h'
    · cases h.symm.trans h'
    · cases h.symm.trans h'
    · cases h.symm.trans h'
      exact he.frame hd hm
  · intro err h
    have hbody : (Call.place (.move t n p)).body.alone d = .error err := h
    rw [after, hbody]

theorem tree_threeDirectories : Tree threeDirectories := by
  have hsound : Sound (Db.seed (AList.singleton 1 ⟨100, 0⟩) ∅ ∅) :=
    sound_empty (Db.seed (AList.singleton 1 ⟨100, 0⟩) ∅ ∅)
  exact (sound_serial hsound _).tree

/-- `a` is moved to `b`, and `c` goes with it. -/
theorem moveDirectory_frame_threeDirectories :
    ∃ d' dst r, (moveDirectory 1 (some 3) (some 4)).alone threeDirectories = .ok ((), d') ∧
      threeDirectories.nodeOf 1 4 = some dst ∧ threeDirectories.nodes.lookup 5 = some r ∧
      d'.nodes.lookup 5 = some (moved 3 4 dst.lineagePath 5 r) := by
  have hbelow : (threeDirectories.nodes.lookup 5).map NodeRow.parentId = some (some 3) := by
    decide +kernel
  have hok : ((moveDirectory 1 (some 3) (some 4)).alone threeDirectories).isOk = true := by
    decide +kernel
  cases h : (moveDirectory 1 (some 3) (some 4)).alone threeDirectories with
  | error err =>
    rw [h] at hok
    cases hok
  | ok res =>
    obtain ⟨⟨⟩, d'⟩ := res
    obtain ⟨n', p', dst, hn, hp, hdst, hframe, -⟩ :=
      (moveDirectory_frame threeDirectories tree_threeDirectories 1 (some 3) (some 4)).1 d' h
    cases hn
    cases hp
    obtain ⟨r, hr, hr'⟩ := (hframe 5).1 (.single (Option.map_eq_some_iff.1 hbelow))
    exact ⟨d', dst, r, rfl, hdst, hr, hr'⟩

end Aegis.Namespace
