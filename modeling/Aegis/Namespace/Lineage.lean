import Aegis.Namespace.Tree

/-!
# Lineage under concurrency

INSERTs and `move_directory` calls in any interleaving. The row locks alone do not keep I-2e: an
INSERT takes the path of its parent from a read that holds nothing, and a move rewrites the rows its
snapshot shows and no others. What does keep it is that no transaction places a node by a path that
another one is about to rewrite: in a run where no `readPath` mark meets a `rewritePath` mark of
another transaction (`Sys.Clear`), every move rewrites exactly the subtree (`Progress`), however
many moves and INSERTs overlap in time.
-/

namespace Aegis.Namespace

open Db Stmt Txn Txn.Footprint

/-! ## What locks and marks protect -/

/-- The lock of a node protects its row. Who has read a path keeps the row it was read from; who is
about to rewrite a subtree keeps others from deleting its nodes and from adding children to them. -/
def Protects : DbLock → Db → Db → Prop
  | .row (.node n) m, d, d' => m.writes = true → d.nodes.lookup n = d'.nodes.lookup n
  | .readPath n, d, d' => ∀ r, d.nodes.lookup n = some r → d'.nodes.lookup n = some r
  | .rewritePath n, d, d' =>
    (hasNode n d = true → hasNode n d' = true) ∧
      ∀ x, Forest.Child d'.forest x n → Forest.Child d.forest x n
  | _, _, _ => True

/-- The locks that nobody waits for. -/
def IsMark : DbLock → Prop
  | .readPath _ => True
  | .rewritePath _ => True
  | _ => False

def locks : Footprint Db DbLock where
  Agree := Protects
  Mark := IsMark
  refl := by
    intro l d
    unfold Protects
    split
    · exact fun _ => rfl
    · exact fun _ h => h
    · exact ⟨id, fun _ h => h⟩
    · trivial
  trans := by
    intro l a b c hab hbc
    unfold Protects at *
    split
    · exact fun hm => (hab hm).trans (hbc hm)
    · exact fun r hr => hbc r (hab r hr)
    · exact ⟨fun h => hbc.1 (hab.1 h), fun x hx => hab.2 x (hbc.2 x hx)⟩
    · trivial

variable {n : Uuid}

/-- A change of one row: the writer holds it, deletes nothing, and has read the path of every node
that the row becomes a child of; others that have read the path of the row itself see it unchanged,
or the writer has marked it for rewriting. -/
theorem covered_row {ls : List DbLock} {f : Db → Db} (g : Option NodeRow → Option NodeRow)
    (hrow : .row (.node n) .update ∈ ls)
    (hf : ∀ d x, (f d).nodes.lookup x = if x = n then g (d.nodes.lookup x) else d.nodes.lookup x)
    (hthere : ∀ r, (g (some r)).isSome = true)
    (hchild : ∀ o r p, g o = some r → r.parentId = some p →
      (∃ r', o = some r' ∧ r'.parentId = some p) ∨ .readPath p ∈ ls)
    (hread : (∀ r, g (some r) = some r) ∨ .rewritePath n ∈ ls) : locks.Covered ls f where
  loc := by
    intro l d d' hls hl
    have hsame : d.nodes.lookup n = d'.nodes.lookup n := hls _ hrow rfl
    have hat : ∀ {e : Db}, (f e).nodes.lookup n = g (e.nodes.lookup n) := by
      intro e
      rw [hf, if_pos rfl]
    have hoff : ∀ {e : Db} {x}, x ≠ n → (f e).nodes.lookup x = e.nodes.lookup x := by
      intro e x hx
      rw [hf, if_neg hx]
    simp only [locks, Protects] at hl ⊢
    split
    · intro hm
      rw [hf, hf, hl hm]
    · next x =>
      intro r hr
      rcases eq_or_ne x n with rfl | hx
      · rwa [hat, ← hsame, ← hat]
      · rw [hoff hx] at hr ⊢
        exact hl r hr
    · next x =>
      obtain ⟨hpres, hkids⟩ := hl
      refine ⟨?_, fun y hy => ?_⟩
      · rcases eq_or_ne x n with rfl | hx
        · rw [hasNode, hasNode, hat, hat, hsame]
          exact id
        · rw [hasNode, hasNode, hoff hx, hoff hx]
          exact hpres
      · rw [forest_child] at hy ⊢
        rcases eq_or_ne y n with rfl | hne
        · rwa [hat, hsame, ← hat]
        · rw [hoff hne] at hy ⊢
          exact forest_child.1 (hkids y (forest_child.2 hy))
    · trivial
  frame := by
    intro l d hl
    simp only [locks, Protects]
    split
    · next x m' =>
      intro hm'
      have hne := DbLock.ne_of_compatible hl rfl hm' hrow
      rw [hf, if_neg (by simpa using hne)]
    · next x =>
      intro r hr
      rw [hf]
      split
      · next hx =>
        subst hx
        rcases hread with hread | hmark
        · rw [hr, hread]
        · have := hl _ hmark
          simp [Lock.conflicts, DbLock.conflicts] at this
      · exact hr
    · next x =>
      refine ⟨fun hx => ?_, fun y hy => ?_⟩
      · obtain ⟨r, hr⟩ := Option.isSome_iff_exists.1 hx
        rw [hasNode, hf, hr]
        split
        · exact hthere r
        · rfl
      · rw [forest_child] at hy ⊢
        obtain ⟨r, hr, hp⟩ := hy
        rw [hf] at hr
        split at hr
        · next hyn =>
          rcases hchild _ r x hr hp with hold | hmark
          · exact hold
          · have := hl _ hmark
            simp [Lock.conflicts, DbLock.conflicts] at this
        · exact ⟨r, hr, hp⟩
    · trivial

/-! ## Verified statements -/

/-- `p` takes points where `A` holds to points where `B` holds, whatever other INSERTs and moves do
meanwhile. -/
abbrev Ensures {β : Type} (A : List DbLock → World Db PlaceCall Unit → Db → Prop) (p : Stmt β)
    (B : β → List DbLock → World Db PlaceCall Unit → Db → Prop) : Prop :=
  locks.Triple (fun w => Tree w.db) (fun _ => False) A p B

/-- Holding more does not falsify the assertion. -/
def Grows (A : List DbLock → World Db PlaceCall Unit → Db → Prop) : Prop :=
  ∀ ⦃held held' w u⦄, A held w u → held ⊆ held' → A held' w u

section Rules

variable {A : List DbLock → World Db PlaceCall Unit → Db → Prop}

theorem read_ensures : Ensures A Prog.read fun _ => A :=
  Triple.read fun _ _ _ _ _ _ _ _ hu _ _ => hu

theorem check_ensures : Ensures A (Prog.check c e) fun _ => A :=
  (Triple.guard id).post fun _ _ _ _ _ hu => hu.2

variable (hA : Grows A)
include hA

theorem forUpdate_ensures : Ensures A (forUpdate k present) fun _ => A :=
  forUpdate_triple fun _ _ _ _ _ _ _ _ _ hu hs _ _ _ => hA hu hs

theorem references_ensures : Ensures A (references k present c) fun _ => A :=
  references_triple id fun _ _ _ _ _ _ _ _ _ hu hs _ => hA hu hs

theorem referencesParent_ensures : Ensures A (referencesParent p) fun _ => A := by
  cases p with
  | none => exact Triple.ret fun _ _ _ _ hu => hu
  | some p => exact references_ensures hA

/-- A row that a path was read from stays as it was read. -/
theorem readLineage_ensures :
    Ensures A (readLineage n) fun v held w u => A held w u ∧ .readPath n ∈ held ∧
      ∀ r, v.nodes.lookup n = some r → u.nodes.lookup n = some r := by
  refine Triple.stmt ?_ (fun _ _ _ _ _ => Covered.id _) ?_
  · intro v l hl
    obtain rfl := List.mem_singleton.1 hl
    exact .inl trivial
  · intro held w v w' u _ _ _ hu _ hview
    exact ⟨hA hu (List.subset_append_right _ _), by simp, hview (.readPath n) (by simp)⟩

end Rules

/-! ## INSERT -/

/-- A view in which the namespace is as committed. -/
abbrev Untouched (_held : List DbLock) (w : World Db PlaceCall Unit) (u : Db) : Prop :=
  u.nodes = w.db.nodes

theorem grows_untouched : Grows Untouched := fun _ _ _ _ hu _ => hu

theorem ltreeConcat_ensures :
    Ensures A (ltreeConcat a b) fun path held w u => path = a ++ b ∧ A held w u :=
  Triple.checked id fun _ => Triple.ret fun _ _ _ _ hu => ⟨rfl, hu⟩

theorem subpath_ensures :
    Ensures A (subpath path k) fun below held w u => below = path.drop k ∧ A held w u :=
  Triple.checked id fun _ => Triple.ret fun _ _ _ _ hu => ⟨rfl, hu⟩

/-- The trigger finds a place for the new node, and the parent stays as it was read. -/
theorem lineageGuardInsert_ensures :
    Ensures Untouched (lineageGuardInsert n t parent) fun path held w u =>
      Untouched held w u ∧ Placed w.db n t parent path ∧
        ∀ p, parent = some p → .readPath p ∈ held := by
  cases parent with
  | none =>
    refine Triple.ret ?_
    intro _ _ _ _ hu
    exact ⟨hu, rfl, by intro p hp; cases hp⟩
  | some p =>
    refine Triple.bind (readLineage_ensures grows_untouched) fun v => ?_
    split
    · exact Triple.raise id
    · next r hr =>
      refine Triple.checked id fun hten => Triple.checked id fun hdir => ?_
      refine Triple.checked id fun _ => ltreeConcat_ensures.post ?_
      rintro path held w u - ⟨rfl, hu, hmark, hsame⟩
      refine ⟨hu, ⟨r, ?_, by simpa using hten, by simpa using hdir, rfl⟩, ?_⟩
      · rw [← hu]
        exact hsame r hr
      · rintro _ ⟨⟩
        exact hmark

/-- The new row, in the place the trigger found for it, leaves a tree. -/
theorem insertNodeRow_ensures :
    Ensures (fun held w u => Untouched held w u ∧
        Placed w.db n r.tenantId r.parentId r.lineagePath ∧
        ∀ p, r.parentId = some p → .readPath p ∈ held)
      (insertNodeRow n r) fun _ _ _ u => Tree u := by
  refine Triple.checked id fun _ => Triple.checked id fun _ => ?_
  refine Triple.bind (M := fun v _ _ u => hasNode n v = false → Tree u)
    (Triple.stmt (fun _ _ hl => .inr hl) ?_ ?_) fun v => ?_
  · rintro held w v - ⟨-, -, hmark⟩
    refine covered_row (n := n) (fun o => some (o.getD r)) (by simp)
      (fun d x => lookup_insertNode n r d x) (fun _ => rfl) ?_ (.inl fun _ => rfl)
    intro o r' p ho hp
    cases o with
    | none =>
      cases ho
      exact .inr (List.mem_append_right _ (hmark p hp))
    | some r₀ => exact .inl ⟨r₀, rfl, by cases ho; exact hp⟩
  · rintro held w v w' u - - hw' ⟨hu, hplace, -⟩ - hview hnew
    have hsame : v.nodes.lookup n = u.nodes.lookup n :=
      hview (.row (.node n) .update) (by simp) rfl
    have habsent : w'.db.nodes.lookup n = none := by
      rw [← hu, ← hsame]
      simpa [hasNode] using hnew
    refine hw'.insertNode habsent hplace fun x => ?_
    rw [lookup_insertNode, hu]
    split
    · next hx => rw [hx, habsent, Option.getD_none]
    · rfl
  · refine Triple.checked id fun hnew => Triple.checked id fun _ => ?_
    refine Triple.pre (A := fun _ _ u => Tree u) ?_ fun _ _ u _ hu => hu (by simpa using hnew)
    refine Triple.checked id fun _ => ?_
    refine Triple.bind (references_ensures fun _ _ _ _ hu _ => hu) fun _ => ?_
    exact referencesParent_ensures fun _ _ _ _ hu _ => hu

theorem insertNode_ensures : Ensures Untouched (insertNode a) fun _ _ _ u => Tree u := by
  refine Triple.bind (M := fun _ => Untouched) ?_ fun name => ?_
  · exact Triple.checked id fun _ => Triple.ret fun _ _ _ _ hu => hu
  · exact Triple.bind lineageGuardInsert_ensures fun path =>
      insertNodeRow_ensures (r := ⟨a.tenantId, a.parentId, name, a.type, path, 1, false⟩)

/-! ## `move_directory` -/

/-- A row after the move of `src` under `dst`, whose rows were `s` and `p` before. -/
def landed (src dst : Uuid) (s p : NodeRow) (n : Uuid) (r : NodeRow) : NodeRow :=
  if s.lineagePath <+: r.lineagePath then remapped src dst s.lineagePath p.lineagePath n r else r

/-- A move on its way: the rows in `left` are still to be rewritten, the others have landed. -/
structure Moving (src dst : Uuid) (s p : NodeRow) (left : List Uuid) (held : List DbLock)
    (w : World Db PlaceCall Unit) (u : Db) : Prop where
  source : w.db.nodes.lookup src = some s
  target : w.db.nodes.lookup dst = some p
  mark : .readPath dst ∈ held
  nodup : left.Nodup
  picked : ∀ x ∈ left, .rewritePath x ∈ held ∧ hasNode x w.db = true
  progress : ∀ x, u.nodes.lookup x =
    if x ∈ left then w.db.nodes.lookup x
    else (w.db.nodes.lookup x).map (landed src dst s p x)

section Move

variable {t src dst x : Uuid} {s p r : NodeRow} {left : List Uuid} {held held' : List DbLock}
  {w : World Db PlaceCall Unit} {u v : Db}

theorem Moving.grow (h : Moving src dst s p left held w u) (hs : held ⊆ held') :
    Moving src dst s p left held' w u :=
  { h with
    mark := hs h.mark
    picked := fun x hx => ⟨hs (h.picked x hx).1, (h.picked x hx).2⟩ }

/-- A row still to be rewritten is as committed. -/
theorem Moving.lookup_left (h : Moving src dst s p (x :: left) held w u) :
    u.nodes.lookup x = w.db.nodes.lookup x := by
  rw [h.progress, if_pos List.mem_cons_self]

/-- One row lands. -/
theorem Moving.land (h : Moving src dst s p (x :: left) held w u)
    (hr : w.db.nodes.lookup x = some r)
    (hv : ∀ y, v.nodes.lookup y =
      if y = x then some (landed src dst s p x r) else u.nodes.lookup y) :
    Moving src dst s p left held w v where
  source := h.source
  target := h.target
  mark := h.mark
  nodup := (List.nodup_cons.1 h.nodup).2
  picked := fun y hy => h.picked y (List.mem_cons_of_mem x hy)
  progress := by
    intro y
    rw [hv]
    split
    · next hy =>
      rw [hy, if_neg (List.nodup_cons.1 h.nodup).1, hr, Option.map_some]
    · next hy => simp only [h.progress, List.mem_cons, hy, false_or]

/-- In a tree the WHERE clause of the UPDATE picks the subtree. -/
theorem subtree_clause (h : Tree d) (hsrc : d.nodes.lookup src = some s) (hs : s.tenantId = t)
    (hr : d.nodes.lookup x = some r) :
    (r.tenantId == t && (x == src || r.lineagePath.descendantOf s.lineagePath)) = true ↔
      s.lineagePath <+: r.lineagePath := by
  simp only [Bool.and_eq_true, Bool.or_eq_true, beq_iff_eq, LTree.descendantOf_iff]
  constructor
  · rintro ⟨-, rfl | hpre⟩
    · cases hsrc.symm.trans hr
      exact List.prefix_rfl
    · exact hpre
  · intro hpre
    exact ⟨(h.tenant_of_subtree hsrc hr hpre).trans hs, .inr hpre⟩

/-- **The scan** marks the subtree: nothing joins it from here on, and all that is outside has
landed. -/
theorem scan_ensures (hs : s.tenantId = t) :
    Ensures (fun held w u => Untouched held w u ∧ w.db.nodes.lookup src = some s ∧
        w.db.nodes.lookup dst = some p ∧ .readPath dst ∈ held)
      (.stmt (fun _ => []) (fun v => (v.subtree t src s.lineagePath).map .rewritePath) fun _ d => d)
      fun v => Moving src dst s p (v.subtree t src s.lineagePath) := by
  refine Triple.stmt ?_ (fun _ _ _ _ _ => Covered.id _) ?_
  · intro v l hl
    obtain ⟨x, -, rfl⟩ := List.mem_map.1 hl
    exact .inl trivial
  · rintro held w v w' u hw ⟨hv, hsrc, -, -⟩ hw' ⟨hu, hsrc', hdst', hmark⟩ hbase -
    have hmem : ∀ {x}, x ∈ v.subtree t src s.lineagePath ↔
        ∃ r, w.db.nodes.lookup x = some r ∧ s.lineagePath <+: r.lineagePath := by
      intro x
      rw [Db.subtree, Table.mem_keysWhere, hv]
      constructor
      · rintro ⟨r, hr, hc⟩
        exact ⟨r, hr, (subtree_clause hw hsrc hs hr).1 hc⟩
      · rintro ⟨r, hr, hpre⟩
        exact ⟨r, hr, (subtree_clause hw hsrc hs hr).2 hpre⟩
    have hheld : ∀ {x}, x ∈ v.subtree t src s.lineagePath →
        .rewritePath x ∈ (v.subtree t src s.lineagePath).map .rewritePath ++ held :=
      fun hx => List.mem_append_left _ (List.mem_map_of_mem hx)
    -- the marks keep others from putting a node under a marked one
    have hall : ∀ {x r}, w'.db.nodes.lookup x = some r → s.lineagePath <+: r.lineagePath →
        x ∈ v.subtree t src s.lineagePath := by
      intro x r hx hpre
      refine hw'.subtree_induction hsrc' (P := fun x _ => x ∈ v.subtree t src s.lineagePath)
        (hmem.2 ⟨s, hsrc, List.prefix_rfl⟩) ?_ hx hpre
      intro x q r qr hr hq _ _ hin
      have hchild := (hbase _ (hheld hin)).2 x (forest_child.2 ⟨r, hr, hq⟩)
      obtain ⟨r₀, hr₀, hq₀⟩ := forest_child.1 hchild
      obtain ⟨qr₀, hqr₀, hpre₀⟩ := hmem.1 hin
      have hx₀ : w.db.forest x = some (some q, r₀.lineagePath) := by
        rw [forest_of_lookup hr₀, hq₀]
      exact hmem.2 ⟨r₀, hr₀, hw.lined.isPrefix_child hx₀ (forest_of_lookup hqr₀) hpre₀⟩
    refine ⟨hsrc', hdst', List.mem_append_right _ hmark, Table.nodup_keysWhere _ _, ?_, ?_⟩
    · intro x hx
      obtain ⟨r, hr, -⟩ := hmem.1 hx
      exact ⟨hheld hx, (hbase _ (hheld hx)).1 (by rw [hasNode, hr]; rfl)⟩
    · intro x
      rw [hu]
      split
      · rfl
      · next hx =>
        cases hr : w'.db.nodes.lookup x with
        | none => rfl
        | some r => rw [Option.map_some, landed, if_neg fun hpre => hx (hall hr hpre)]

/-- The write of one row is covered: the target was read, and the row is marked and locked. -/
theorem setLineage_covered (hrow : .row (.node x) .update ∈ held) (hmark : .rewritePath x ∈ held)
    (hread : ∀ q, newParent = some q → .readPath q ∈ held) :
    locks.Covered held (setLineage x newParent path) := by
  refine covered_row (Option.map fun r =>
      { r with
        parentId := newParent.or r.parentId
        lineagePath := path
        aclEpoch := r.aclEpoch + 1 }) hrow ?_ (fun _ => rfl) ?_ (.inr hmark)
  · intro d y
    rw [setLineage, Table.lookup_modify]
  · intro o r' q ho hq
    obtain ⟨r, rfl, rfl⟩ := Option.map_eq_some_iff.1 ho
    cases newParent with
    | none => exact .inl ⟨r, rfl, hq⟩
    | some q' =>
      cases hq
      exact .inr (hread q rfl)

/-- Row `r` of node `x` is locked, and is the next to land. -/
def Locked (src dst : Uuid) (s p : NodeRow) (x : Uuid) (r : NodeRow) (left : List Uuid)
    (held : List DbLock) (w : World Db PlaceCall Unit) (u : Db) : Prop :=
  Moving src dst s p (x :: left) held w u ∧ .row (.node x) .update ∈ held ∧
    w.db.nodes.lookup x = some r

/-- The lock of a picked row: the row is there and stays as it is read. -/
theorem lockRow_ensures :
    Ensures (Moving src dst s p (x :: left)) (forUpdate (.node x) (hasNode x)) fun v held w u =>
      ∃ r, v.nodes.lookup x = some r ∧ Locked src dst s p x r left held w u := by
  refine forUpdate_triple ?_
  intro held held' w v w' u _ hv _ hu hs hlock hbase hview
  have hthere : hasNode x v = true := by
    rw [hasNode, hv.lookup_left]
    exact (hv.picked x List.mem_cons_self).2
  obtain ⟨r, hr⟩ := Option.isSome_iff_exists.1 hthere
  have hsame : v.nodes.lookup x = u.nodes.lookup x := hview _ (hlock hthere) rfl
  refine ⟨r, hr, hu.grow hs, hlock hthere, ?_⟩
  rw [← hu.lookup_left, ← hsame, hr]

/-- The new path of a row of the subtree. -/
theorem remappedPath_ensures (dst : Uuid) (hr : x = src → r.lineagePath = srcPath) :
    Ensures A (remappedPath src srcPath dstPath x r) fun path held w u =>
      path = (remapped src dst srcPath dstPath x r).lineagePath ∧ A held w u := by
  refine Triple.ite (fun hx => ?_) fun hx => ?_
  · refine ltreeConcat_ensures.post ?_
    rintro path held w u - ⟨rfl, hu⟩
    refine ⟨?_, hu⟩
    rw [remapped, hr hx, List.drop_length, List.append_nil]
  · refine Triple.bind ltreeConcat_ensures fun top => Triple.given fun htop => ?_
    refine Triple.bind subpath_ensures fun below => Triple.given fun hbelow => ?_
    subst htop hbelow
    exact ltreeConcat_ensures

/-- The trigger agrees with the UPDATE on the path: it reads the target that the move has read. -/
theorem lineageGuardUpdate_ensures (hout : ¬ s.lineagePath <+: p.lineagePath)
    (hr : x = src → r.lineagePath = s.lineagePath)
    (hparent : new.parentId = if x = src then some dst else r.parentId)
    (hpath : new.lineagePath = (remapped src dst s.lineagePath p.lineagePath x r).lineagePath) :
    Ensures (Locked src dst s p x r left) (lineageGuardUpdate true x r new) fun path held w u =>
      path = (remapped src dst s.lineagePath p.lineagePath x r).lineagePath ∧
        Locked src dst s p x r left held w u := by
  refine Triple.ite (fun _ => ?_) fun hne => ?_
  · exact Triple.checked id fun _ => Triple.ret fun _ _ _ _ hu => ⟨hpath, hu⟩
  · refine Triple.checked id fun _ => ?_
    -- only the moved node changes its parent
    obtain rfl : x = src := by
      by_contra hx
      rw [hparent, if_neg hx] at hne
      exact hne rfl
    rw [if_pos rfl] at hparent
    simp only [hparent]
    refine Triple.bind (readLineage_ensures
      fun _ _ _ _ h hs => ⟨h.1.grow hs, hs h.2.1, h.2.2⟩) fun v => ?_
    split
    · exact Triple.raise id
    · next q hq =>
      refine Triple.checked id fun _ => ?_
      refine ltreeConcat_ensures.post ?_
      rintro path held w u - ⟨rfl, hu, -, hsame⟩
      -- the target is not in the subtree, so it is never rewritten
      have htarget := hu.1.progress dst
      rw [hu.1.target, Option.map_some, landed, if_neg hout, ite_self] at htarget
      cases (hsame q hq).symm.trans htarget
      refine ⟨?_, hu⟩
      rw [remapped, hr rfl, List.drop_length, List.append_nil]

/-- The row lands. -/
theorem writeLineage_ensures (hpre : s.lineagePath <+: r.lineagePath)
    (hpath : new.lineagePath = (remapped src dst s.lineagePath p.lineagePath x r).lineagePath) :
    Ensures (Locked src dst s p x r left) (writeLineage src dst x new) fun _ =>
      Moving src dst s p left := by
  have hcov : ∀ {newParent : Option Uuid} {ls held w v}, (∀ q, newParent = some q → q = dst) →
      Locked src dst s p x r left held w v →
      locks.Covered (ls ++ held) (setLineage x newParent new.lineagePath) := by
    rintro newParent ls held w v hq ⟨hm, hlock, -⟩
    refine setLineage_covered (List.mem_append_right _ hlock)
      (List.mem_append_right _ (hm.picked x List.mem_cons_self).1) ?_
    rintro q hq'
    exact List.mem_append_right _ (hq q hq' ▸ hm.mark)
  have hland : ∀ {newParent : Option Uuid} {ls held w u},
      newParent.or r.parentId = (if x = src then some dst else r.parentId) →
      Locked src dst s p x r left held w u →
      Moving src dst s p left (ls ++ held) w (setLineage x newParent new.lineagePath u) := by
    rintro newParent ls held w u hq ⟨hm, -, hr⟩
    refine (hm.grow (List.subset_append_right _ _)).land hr fun y => ?_
    rw [setLineage, Table.lookup_modify]
    split
    · next hy => rw [hy, hm.lookup_left, hr, Option.map_some, landed, if_pos hpre, hpath, hq]; rfl
    · rfl
  refine Triple.ite (fun hx => ?_) fun hx => ?_
  · refine Triple.bind (M := fun _ => Moving src dst s p left)
      (Triple.stmt (fun _ _ hl => .inr hl) ?_ ?_) fun _ => Triple.checked id fun _ => check_ensures
    · intro held w v _ hv
      exact hcov (by rintro q ⟨⟩; rfl) hv
    · intro held w v w' u _ _ _ hu _ _
      exact hland (by rw [if_pos hx]; rfl) hu
  · refine Triple.bind (M := fun _ => Moving src dst s p left)
      (Triple.stmt (fun _ _ hl => .inr hl) ?_ ?_) fun _ => check_ensures
    · intro held w v _ hv
      exact hcov (by rintro q ⟨⟩) hv
    · intro held w v w' u _ _ _ hu _ _
      exact hland (by rw [if_neg hx]; rfl) hu

/-- **One round** of the UPDATE: the row lands, rewritten or not. -/
theorem remapRow_ensures (hs : s.tenantId = t) (hout : ¬ s.lineagePath <+: p.lineagePath) :
    Ensures (Moving src dst s p (x :: left))
      (remapRow t src dst s.lineagePath p.lineagePath x) fun _ => Moving src dst s p left := by
  refine Triple.bind lockRow_ensures fun v => ?_
  split
  · next hv =>
    refine Triple.ret ?_
    rintro held w u - ⟨r, hr, -⟩
    cases hv.symm.trans hr
  · next r hv =>
    refine Triple.pre (A := Locked src dst s p x r left) ?_ ?_
    · refine Triple.ite (fun hc => ?_) fun hc => ?_
      · refine Triple.assume (φ := s.lineagePath <+: r.lineagePath) ?_ fun hpre => ?_
        · rintro held w u hw ⟨hm, -, hr⟩
          exact (subtree_clause hw hm.source hs hr).1 hc
        refine Triple.assume (φ := x = src → r.lineagePath = s.lineagePath) ?_ fun hr => ?_
        · rintro held w u - ⟨hm, -, hr⟩ rfl
          cases hm.source.symm.trans hr
          rfl
        refine Triple.bind (remappedPath_ensures dst hr) fun path => Triple.given fun hpath => ?_
        refine Triple.bind (lineageGuardUpdate_ensures hout hr rfl hpath) fun path' =>
          Triple.given fun hpath' => ?_
        refine Triple.checked id fun _ => ?_
        refine Triple.bind (writeLineage_ensures hpre hpath') fun _ => ?_
        exact Triple.ret fun _ _ _ _ hu => hu
      · refine Triple.ret ?_
        rintro held w u hw ⟨hm, -, hr⟩
        have hpre : ¬ s.lineagePath <+: r.lineagePath := fun hpre =>
          hc ((subtree_clause hw hm.source hs hr).2 hpre)
        refine hm.land hr fun y => ?_
        split
        · next hy => rw [hy, hm.lookup_left, hr, landed, if_neg hpre]
        · rfl
    · rintro held w u - ⟨r', hr', hl⟩
      cases hv.symm.trans hr'
      exact hl

/-- The whole UPDATE is the move. -/
theorem remapSubtree_ensures (hs : s.tenantId = t) (hp : p.tenantId = t)
    (hdir : p.type = .directory) (hout : ¬ s.lineagePath <+: p.lineagePath) :
    Ensures (fun held w u => Untouched held w u ∧ w.db.nodes.lookup src = some s ∧
        w.db.nodes.lookup dst = some p ∧ .readPath dst ∈ held)
      (remapSubtree id t src dst s.lineagePath p.lineagePath) fun _ _ _ u => Tree u := by
  refine Triple.bind (scan_ensures hs) fun v => ?_
  refine Triple.bind (Triple.collect (I := fun l _ => Moving src dst s p l)
    (fun x l _ => remapRow_ensures hs hout) _) fun moved => ?_
  refine Triple.pre (A := fun _ _ u => Tree u) ?_ ?_
  · refine Triple.bind (Triple.forEach (I := fun _ _ _ u => Tree u) (fun _ _ => ?_) _) fun _ =>
      check_ensures
    exact referencesParent_ensures fun _ _ _ _ hu _ => hu
  · rintro held w u hw hm
    exact hw.move hm.source hm.target hdir (hp.trans hs.symm) hout fun x => by
      rw [hm.progress, if_neg List.not_mem_nil]
      rfl

end Move

theorem lockEndpoints_ensures : Ensures Untouched (lockEndpoints t n q) fun _ => Untouched := by
  refine Triple.bind read_ensures fun v => ?_
  refine Triple.forEach (I := fun _ => Untouched) (fun x l => ?_) _
  exact Triple.bind (forUpdate_ensures grows_untouched) fun _ => Triple.ret fun _ _ _ _ hu => hu

theorem lookup_of_nodeOf {d : Db} (h : d.nodeOf t n = some r) :
    d.nodes.lookup n = some r ∧ r.tenantId = t := by
  obtain ⟨hr, ht⟩ := Option.filter_eq_some_iff.1 h
  exact ⟨hr, by simpa using ht⟩

/-- The move once the source row is known. -/
theorem moveUnder_ensures (hs : s.tenantId = t) :
    Ensures (fun held w u => Untouched held w u ∧ w.db.nodes.lookup src = some s)
      (moveUnder id t src dst s) fun _ _ _ u => Tree u := by
  refine Triple.bind (readLineage_ensures fun _ _ _ _ hu _ => hu) fun v => ?_
  split
  · exact Triple.raise id
  · next p hp =>
    obtain ⟨hlookup, hten⟩ := lookup_of_nodeOf hp
    refine Triple.checked id fun hdir => Triple.checked id fun _ => ?_
    refine Triple.checked id fun hout => ?_
    refine Triple.bind read_ensures fun _ => ?_
    refine Triple.checked id fun _ => ?_
    refine Triple.pre (remapSubtree_ensures hs hten (by simpa using hdir) ?_) ?_
    · simpa [← LTree.descendantOf_iff] using hout
    · rintro held w u - ⟨⟨hu, hsrc⟩, hmark, hsame⟩
      exact ⟨hu, hsrc, hu ▸ hsame p hlookup, hmark⟩

theorem moveNode_ensures : Ensures Untouched (moveNode id t n q) fun _ _ _ u => Tree u := by
  refine Triple.bind lockEndpoints_ensures fun _ => ?_
  refine Triple.bind read_ensures fun _ => ?_
  refine Triple.checked id fun _ => ?_
  refine Triple.bind (readLineage_ensures grows_untouched) fun v => ?_
  split
  · exact Triple.raise id
  · next s hs =>
    obtain ⟨hlookup, hten⟩ := lookup_of_nodeOf hs
    refine Triple.checked id fun _ => Triple.checked id fun _ => ?_
    refine Triple.pre (moveUnder_ensures hten) ?_
    rintro held w u - ⟨hu, -, hsame⟩
    exact ⟨hu, hu ▸ hsame s hlookup⟩

theorem moveDirectory_ensures {t : Uuid} {n q : Option Uuid} :
    Ensures Untouched (moveDirectory t n q) fun _ _ _ u => Tree u := by
  unfold moveDirectory moveScanning
  split
  · exact Triple.ite (fun _ => Triple.raise id) fun _ => moveNode_ensures
  · exact Triple.raise id

/-! ## Whole runs -/

/-- A call that places nodes, whatever other such calls do meanwhile, commits a tree. -/
theorem PlaceCall.ensures (c : PlaceCall) : Ensures Untouched c.body fun _ _ _ u => Tree u := by
  cases c with
  | insert a => exact insertNode_ensures
  | move t n q => exact moveDirectory_ensures

/-- **I-2e in clear runs**: from a tree, INSERTs and moves in any interleaving in which nobody reads
the path of a node that another transaction is about to rewrite, nor rewrites a path that another
transaction has read to place a node by, keep every path exact in every state. -/
theorem pathsExact_of_clear {d : Db} (hd : Tree d) {acts : List (Action PlaceCall)}
    {s : Sys Db DbLock Err PlaceCall Unit} (hc : Sys.Clear PlaceCall.body (Sys.init d) acts)
    (hr : (Sys.init d).run PlaceCall.body acts = some s) : s.world.db.pathsExact = true := by
  have hbody : ∀ c w, Tree w.db → (locks.protocol (fun w => Tree w.db) fun _ => False).wp
      (PlaceCall.body c) ((locks.protocol (fun w => Tree w.db) fun _ => False).Commits c) [] id w :=
    fun c _ hw => Triple.commits c.ensures (fun _ _ => rfl) (fun _ _ _ _ _ _ hu => hu) hw
  have hgood := Protocol.sound_of_clear (P := locks.protocol (fun w => Tree w.db) fun _ => False)
    hbody hd hc hr
  exact pathsExact_iff.2 (show Tree s.world.db from hgood.inv).lined

/-- Directories `a` (3) and `b` (4) are created side by side, and while `a` moves under `b` a file
is put into `b`: only paths that nobody rewrites are read. -/
def moveBesideInsert : List (Action PlaceCall) := List.flatten [
  [.start (.insert ⟨2, 1, none, ['r'], .directory⟩), .exec 0, .exec 0, .commit 0,
    .start (.insert ⟨3, 1, some 2, ['a'], .directory⟩),
    .start (.insert ⟨4, 1, some 2, ['b'], .directory⟩)],
  List.replicate 4 (.exec 1), List.replicate 4 (.exec 2), [.commit 2, .commit 1,
    .start (.insert ⟨5, 1, some 4, ['x'], .file⟩), .start (.move 1 (some 3) (some 4)), .exec 3],
  List.replicate 12 (.exec 4), [.commit 4], List.replicate 3 (.exec 3), [.commit 3]]

theorem pathsExact_moveBesideInsert :
    ∃ s, (Sys.init (Db.seed (AList.singleton 1 ⟨100, 0⟩) ∅ ∅)).run PlaceCall.body
        moveBesideInsert = some s ∧ (s.txns.all fun t => t.phase.isOver) = true ∧
      s.world.journal.length = 5 ∧ s.world.db.pathsExact = true := by
  have hrun : ((Sys.init (Db.seed (AList.singleton 1 ⟨100, 0⟩) ∅ ∅)).run PlaceCall.body
      moveBesideInsert).map (fun s => (s.txns.all fun t => t.phase.isOver,
        s.world.journal.length)) = some (true, 5) := by decide +kernel
  obtain ⟨s, hs, hover, hlength⟩ := exists_of_map_eq_pair hrun
  exact ⟨s, hs, hover, hlength, pathsExact_of_clear (tree_seed _ _) (by decide +kernel) hs⟩

/-- A root with directories `a` (3) and `b` (4), and a directory `c` (5) in `a`. -/
def threeDirectories : Db :=
  serial (Db.seed (AList.singleton 1 ⟨100, 0⟩) ∅ ∅) [
    .createRoot 2 1 ['r'],
    .place (.insert ⟨3, 1, some 2, ['a'], .directory⟩),
    .place (.insert ⟨4, 1, some 2, ['b'], .directory⟩),
    .place (.insert ⟨5, 1, some 3, ['c'], .directory⟩)]

/-- A file is put into `c` while `a` is moved under `b`: the INSERT has run but not committed when
the UPDATE of the move takes its snapshot, and the UPDATE waits for it at the row of `c`. -/
def insertDuringMove : List (Action PlaceCall) := List.flatten [
  [.start (.insert ⟨6, 1, some 5, ['x'], .file⟩), .start (.move 1 (some 3) (some 4))],
  List.replicate 4 (.exec 0), List.replicate 8 (.exec 1), [.commit 0],
  List.replicate 6 (.exec 1), [.commit 1]]

/-- The new file is not in the snapshot, so it keeps the path that led to it before the move. -/
theorem not_pathsExact_insertDuringMove :
    threeDirectories.pathsExact = true ∧
      ∃ s, (Sys.init threeDirectories).run PlaceCall.body insertDuringMove = some s ∧
        (s.txns.all fun t => t.phase.isOver) = true ∧ s.world.db.pathsExact = false := by
  have hrun : ((Sys.init threeDirectories).run PlaceCall.body insertDuringMove).map
      (fun s => (s.txns.all fun t => t.phase.isOver, s.world.db.pathsExact)) =
        some (true, false) := by decide +kernel
  obtain ⟨s, hs, hover, hpaths⟩ := exists_of_map_eq_pair hrun
  exact ⟨by decide +kernel, s, hs, hover, hpaths⟩

end Aegis.Namespace
