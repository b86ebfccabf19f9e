import Aegis.Namespace.Lineage

/-!
# Moves that wait for each other

`move_directory` locks its two endpoints in ascending order and then, one after the other, the rows
of the subtree, in whatever order the UPDATE scans them. The first order excludes cycles over
endpoints only: a move can hold an endpoint that lies in the subtree of a second move and wait for
an endpoint of that one, which then waits for the row in its subtree (`moves_deadlock`).

If no move updates a row, its own endpoints apart, that another running move has as an endpoint or
updates as well, no cycle arises (`move_not_deadlocked`). A move then waits for nobody once it has
its endpoints: the rows of the subtree are its own, and whoever would hold its entry of
`uq_parent_name` would hold the target as well. So what is waited for are endpoints, and along a
chain of waits they ascend.
-/

namespace Aegis.Namespace

open Db Stmt Txn Txn.Prog Txn.Protocol

/-! ## Moves with a scan order -/

/-- The arguments of `move_directory`, and the order in which its UPDATE scans the rows it picks. -/
structure Move where
  tenantId : Uuid
  nodeId : Option Uuid
  newParentId : Option Uuid
  scan : List Uuid → List Uuid
  scan_perm : ∀ l, (scan l).Perm l

namespace Move

/-- `move_directory`. -/
def body (m : Move) : Stmt Unit := moveScanning m.scan m.tenantId m.nodeId m.newParentId

/-- The move that scans the rows in the order of the table. -/
def inTableOrder (tenantId : Uuid) (nodeId newParentId : Option Uuid) : Move :=
  ⟨tenantId, nodeId, newParentId, id, List.Perm.refl⟩

/-- The node and the new parent. -/
def endpoints (m : Move) : List Uuid := m.nodeId.toList ++ m.newParentId.toList

/-- The rows of the subtree of the node. -/
def rows (m : Move) (d : Db) : List Uuid :=
  (m.nodeId.bind fun n => (d.nodeOf m.tenantId n).map fun r =>
    d.subtree m.tenantId n r.lineagePath).getD []

end Move

/-! ## Disjoint moves -/

/-- The move has locked its endpoints, and its UPDATE has not picked its rows. -/
def atUpdate (t : Tx Db DbLock Err Move Unit) : Bool :=
  (t.call.endpoints.all fun n => t.held.contains (.row (.node n) .update)) &&
    t.held.all fun
      | .rewritePath _ => false
      | _ => true

/-- The row has been picked by the UPDATE of the move, or is an endpoint of it, while it is
running. -/
def concerns (t : Tx Db DbLock Err Move Unit) (n : Uuid) : Bool :=
  t.held.contains (.rewritePath n) || !t.phase.isOver && t.call.endpoints.contains n

variable {t : Tx Db DbLock Err Move Unit}

theorem concerns_eq_false_iff :
    concerns t n = false ↔
      .rewritePath n ∉ t.held ∧ (t.phase.isOver = false → n ∉ t.call.endpoints) := by
  simp [concerns]

/-- The moves do not meet in rows that are updated: a move that is about to update has in its
subtree, its endpoints apart, no row that concerns another one, and no move is started on a row that
another one updates, the endpoints of that one apart. -/
def disjoint (s : Sys Db DbLock Err Move Unit) : Action Move → Bool
  | .start m => s.txns.all fun t => m.endpoints.all fun n =>
    t.call.endpoints.contains n || !t.held.contains (.rewritePath n)
  | .exec i =>
    match s.txns[i]? with
    | none => true
    | some t => !atUpdate t || (t.call.rows s.world.db).all fun n =>
      t.call.endpoints.contains n || (s.txns.eraseIdx i).all fun u => !concerns u n
  | .commit _ => true
  | .abort _ => true

/-- The invariant of disjoint moves: a row that a move has picked, other than its endpoints,
concerns no other one. -/
structure Separate (s : Sys Db DbLock Err Move Unit) : Prop where
  picked : ∀ {i j : Nat} {t u : Tx Db DbLock Err Move Unit} {n : Uuid}, i ≠ j →
    s.txns[i]? = some t → s.txns[j]? = some u → .rewritePath n ∈ t.held →
    n ∈ t.call.endpoints ∨ concerns u n = false

/-! ## What is held and what is waited for -/

/-- What holds of the locks of a move. -/
structure Tidy (m : Move) (held : List DbLock) : Prop where
  rows : ∀ n k, .row (.node n) k ∈ held → n ∈ m.endpoints ∨ .rewritePath n ∈ held
  slots : ∀ t p name b k, .row (.uqParentName t p name b) k ∈ held → .row (.node p) .update ∈ held

/-- What a move waits for: a lock that nobody else can hold, or an endpoint above those it holds. -/
inductive InOrder (m : Move) (held : List DbLock) : DbLock → Prop
  | own {k : RowKey} {mode : LockMode} : .row k .update ∈ held → InOrder m held (.row k mode)
  | endpoint {n : Uuid} {mode : LockMode} : (∀ l ∈ held, ∃ x, l = .row (.node x) .update ∧ x < n) →
    InOrder m held (.row (.node n) mode)
  | picked {n : Uuid} {mode : LockMode} : .rewritePath n ∈ held → n ∉ m.endpoints →
    InOrder m held (.row (.node n) mode)
  | slot {t p : Uuid} {name : List Char} {b : Bool} {mode : LockMode} :
    .row (.node p) .update ∈ held → InOrder m held (.row (.uqParentName t p name b) mode)

/-- The rank of a lock: the rows of nodes by their ids. -/
def rank : DbLock → Nat
  | .row (.node n) _ => n.toNat
  | _ => 0

/-- Two transactions do not both lock a row if one of them does so exclusively. -/
theorem not_mem_of_apart {held held' : List DbLock}
    (hapart : ∀ a ∈ held, ∀ b ∈ held', IsMark a ∨ IsMark b ∨ Lock.conflicts a b = false)
    (hk : .row k .update ∈ held) : .row k mode ∉ held' := by
  intro hk'
  rcases hapart _ hk _ hk' with hmark | hmark | hfree
  · exact hmark.elim
  · exact hmark.elim
  · rw [DbLock.conflicts_update] at hfree
    cases hfree

/-- **The ranks increase**: the lock that a move waits for, held by another that is separate from
it, ranks above all it holds itself. -/
theorem InOrder.rank_lt (h : InOrder m held l)
    (hsep : ∀ n, .rewritePath n ∈ held → n ∈ m.endpoints ∨ concerns u n = false)
    (hu : u.phase.isOver = false) (htidy : Tidy u.call u.held) (ha : a ∈ held) (hb : b ∈ u.held)
    (hconf : Lock.conflicts b l = true)
    (hapart : ∀ a ∈ held, ∀ b ∈ u.held, IsMark a ∨ IsMark b ∨ Lock.conflicts a b = false) :
    rank a < rank b := by
  cases h with
  | own hown =>
    obtain ⟨k, rfl, -⟩ := DbLock.eq_row_of_conflicts hconf
    exact absurd hb (not_mem_of_apart hapart hown)
  | endpoint hbelow =>
    obtain ⟨k, rfl, -⟩ := DbLock.eq_row_of_conflicts hconf
    obtain ⟨x, rfl, hx⟩ := hbelow a ha
    exact hx
  | @picked n _ hpicked hn =>
    obtain ⟨k, rfl, -⟩ := DbLock.eq_row_of_conflicts hconf
    obtain ⟨hmark, hend⟩ := concerns_eq_false_iff.1 ((hsep n hpicked).resolve_left hn)
    exact ((htidy.rows n k hb).elim (hend hu) hmark).elim
  | slot htarget =>
    obtain ⟨k, rfl, -⟩ := DbLock.eq_row_of_conflicts hconf
    exact absurd (htidy.slots _ _ _ _ _ hb) (not_mem_of_apart hapart htarget)

/-! ## What a move relies on and writes -/

/-- What is relied on: no node comes or goes, and the row of a node that is locked stays. -/
def tree (d : Db) : Protocol Db DbLock Err Move Unit where
  Inv w := ∀ t n, hasNodeOf t n w.db = hasNodeOf t n d
  Stable l w w' := ∀ n, l = .row (.node n) .update → w'.db.nodes.lookup n = w.db.nodes.lookup n
  Mark := IsMark
  Excluded _ := False
  refl _ _ _ _ := rfl
  trans h h' n hl := (h' n hl).trans (h n hl)

/-- What a move is watched for. It marks rows for the UPDATE once, when it has its endpoints. -/
def conduct (m : Move) : Conduct Db DbLock Move Unit where
  waits held _ l := Tidy m held ∧ InOrder m held l
  marks held w l := ∀ n, l = .rewritePath n →
    (∀ x ∈ m.endpoints, .row (.node x) .update ∈ held) ∧ (∀ x, .rewritePath x ∉ held) ∧
      n ∈ m.rows w.db

/-- What holds of a move all along. -/
structure Stance (d : Db) (m : Move) (held : List DbLock) (eff : Db → Db) (w : World Db Move Unit) :
    Prop where
  inv : ∀ t n, hasNodeOf t n w.db = hasNodeOf t n d
  tidy : Tidy m held
  shape : ∀ v t n, hasNodeOf t n (eff v) = hasNodeOf t n v
  owned : ∀ v n, (eff v).nodes.lookup n = v.nodes.lookup n ∨ .row (.node n) .update ∈ held

section
variable {d : Db} {m : Move} {held : List DbLock} {eff : Db → Db} {w w' : World Db Move Unit}
  {n p x : Uuid} {rows : List Uuid}

theorem Stance.env (h : Stance d m held eff w) (hw : (tree d).Env held w w') :
    Stance d m held eff w' :=
  ⟨hw.1, h.tidy, h.shape, h.owned⟩

/-- A lock that can be taken without more. -/
def Plain (m : Move) (held : List DbLock) : DbLock → Prop
  | .row (.node n) _ => n ∈ m.endpoints ∨ .rewritePath n ∈ held
  | .row (.uqParentName _ p _ _) _ => .row (.node p) .update ∈ held
  | _ => True

theorem Stance.extend (h : Stance d m held eff w) (locks : List DbLock)
    (hlocks : ∀ l ∈ locks, Plain m held l) : Stance d m (locks ++ held) eff w where
  inv := h.inv
  tidy := by
    refine ⟨fun n k hk => ?_, fun t p name b k hk => ?_⟩
    · exact ((List.mem_append.1 hk).elim (hlocks _) (h.tidy.rows n k)).imp_right
        (List.mem_append_right _)
    · exact List.mem_append_right _
        ((List.mem_append.1 hk).elim (hlocks _) (h.tidy.slots t p name b k))
  shape := h.shape
  owned v n := (h.owned v n).imp_right (List.mem_append_right _)

/-- The write of a row that is locked. -/
theorem Stance.setLineage (h : Stance d m held eff w) (hx : .row (.node x) .update ∈ held)
    (q : Option Uuid) (path : LTree) :
    Stance d m held (fun v => Db.setLineage x q path (eff v)) w where
  inv := h.inv
  tidy := h.tidy
  shape v t n := by
    rw [← h.shape v t n, hasNodeOf, hasNodeOf, lookup_setLineage]
    split
    · rw [Option.map_map]
      rfl
    · rfl
  owned v n := by
    rw [lookup_setLineage]
    split
    · next heq => exact .inr (heq ▸ hx)
    · exact h.owned v n

/-- At its end a move changes only rows that it has locked. -/
theorem Stance.settles (h : Stance d m held eff w) :
    (tree d).Settles m () held eff w := by
  intro w' hw' i
  refine ⟨fun t n => (h.shape _ t n).trans (hw'.1 t n), fun l hl n hn => ?_⟩
  subst hn
  refine (h.owned w'.db n).resolve_right fun hown => ?_
  rcases hl _ hown with hmark | hmark | hfree
  · exact hmark.elim
  · exact hmark.elim
  · rw [DbLock.conflicts_update] at hfree
    cases hfree

/-! ## The UPDATE -/

/-- What holds during the UPDATE of `rows`. -/
structure Updating (d : Db) (m : Move) (n p : Uuid) (rows : List Uuid) (held : List DbLock)
    (eff : Db → Db) (w : World Db Move Unit) : Prop extends Stance d m held eff w where
  endpoints : m.endpoints = [n, p]
  source : .row (.node n) .update ∈ held
  target : .row (.node p) .update ∈ held
  picked : ∀ x ∈ rows, .rewritePath x ∈ held

theorem Updating.env (h : Updating d m n p rows held eff w) (hw : (tree d).Env held w w') :
    Updating d m n p rows held eff w' :=
  ⟨h.toStance.env hw, h.endpoints, h.source, h.target, h.picked⟩

theorem Updating.extend (h : Updating d m n p rows held eff w) (locks : List DbLock)
    (hlocks : ∀ l ∈ locks, Plain m held l) : Updating d m n p rows (locks ++ held) eff w where
  toStance := h.toStance.extend locks hlocks
  endpoints := h.endpoints
  source := List.mem_append_right _ h.source
  target := List.mem_append_right _ h.target
  picked x hx := List.mem_append_right _ (h.picked x hx)

theorem Updating.setLineage (h : Updating d m n p rows held eff w)
    (hx : .row (.node x) .update ∈ held) (q : Option Uuid) (path : LTree) :
    Updating d m n p rows held (fun v => Db.setLineage x q path (eff v)) w :=
  ⟨h.toStance.setLineage hx q path, h.endpoints, h.source, h.target, h.picked⟩

/-- A row of the subtree is an endpoint, which is locked, or picked. -/
theorem Updating.inOrder (h : Updating d m n p rows held eff w) (hx : x ∈ rows) :
    InOrder m held (.row (.node x) .update) := by
  by_cases hend : x ∈ m.endpoints
  · rw [h.endpoints] at hend
    rcases List.mem_cons.1 hend with rfl | hend
    · exact .own h.source
    · cases List.mem_singleton.1 hend
      exact .own h.target
  · exact .picked (h.picked x hx) hend

variable {dstPath : LTree}

theorem watch_remappedPath (h : ∀ path, Q path held eff w) :
    (tree d).watch (conduct m) (remappedPath n srcPath dstPath x r) Q held eff w := by
  refine watch_ite (fun _ => ?_) fun _ => ?_
  · exact watch_bind (watch_check fun _ => h _)
  · refine watch_bind (watch_bind (watch_check fun _ => ?_))
    refine watch_bind (watch_bind (watch_check fun _ => ?_))
    exact watch_bind (watch_check fun _ => h _)

/-- Reading a path leaves a mark that is not one of the UPDATE. -/
theorem watch_readLineage
    (h : ∀ w', (tree d).Env held w w' → Q (eff w'.db) (.readPath x :: held) eff w') :
    (tree d).watch (conduct m) (readLineage x) Q held eff w := by
  refine watch_mark (fun _ => List.forall_mem_singleton.2 trivial) fun w' hw' =>
    ⟨?_, h w' hw'⟩
  exact List.forall_mem_singleton.2 nofun

theorem watch_lineageGuardUpdate (h : Updating d m n p rows held eff w)
    (hx : .row (.node x) .update ∈ held) :
    (tree d).watch (conduct m) (lineageGuardUpdate true x old new)
      (fun _ held eff w => Updating d m n p rows held eff w ∧ .row (.node x) .update ∈ held)
      held eff w := by
  refine watch_ite (fun _ => ?_) fun _ => ?_
  · exact watch_bind (watch_check fun _ => ⟨h, hx⟩)
  · refine watch_checked fun _ => ?_
    split
    · trivial
    · next q _ =>
      refine watch_bind (watch_readLineage fun w' hw' => ?_)
      split
      · trivial
      · refine watch_checked fun _ => ?_
        refine watch_checked fun _ => ?_
        exact ⟨(h.env hw').extend [.readPath q] (List.forall_mem_singleton.2 trivial),
          List.mem_cons_of_mem _ hx⟩

theorem watch_writeLineage (h : Updating d m n p rows held eff w)
    (hx : .row (.node x) .update ∈ held) (hparent : x = n → new.parentId = some p) :
    (tree d).watch (conduct m) (writeLineage n p x new)
      (fun _ => Updating d m n p rows) held eff w := by
  refine watch_ite (fun heq => ?_) fun _ => ?_
  · have hslot : slotLocks new =
        [.row (.uqParentName new.tenantId p new.name new.isDeleted) .update] := by
      rw [slotLocks, hparent heq]
    rw [hslot]
    refine watch_bind (watch_stmt (fun _ => List.Subset.refl _) fun w' hw' => ?_)
    refine ⟨fun l hl => ?_, watch_bind (watch_check fun _ => watch_check fun _ => ?_)⟩
    · cases List.mem_singleton.1 hl
      exact ⟨h.tidy, .slot h.target⟩
    · refine ((h.env hw').extend _ ?_).setLineage (List.mem_append_right _ hx) _ _
      exact List.forall_mem_singleton.2 h.target
  · refine watch_bind (watch_stmt (fun _ => List.Subset.refl _) fun w' hw' => ?_)
    exact ⟨nofun, watch_check fun _ => (h.env hw').setLineage hx _ _⟩

/-- One row of the UPDATE. -/
theorem watch_remapRow (h : Updating d m n p rows held eff w) (hx : x ∈ rows) :
    (tree d).watch (conduct m) (remapRow m.tenantId n p srcPath dstPath x)
      (fun _ => Updating d m n p rows) held eff w := by
  refine watch_bind (watch_forUpdate fun w' hw' => ⟨fun _ => ⟨h.tidy, h.inOrder hx⟩, ?_⟩)
  have h₁ : Updating d m n p rows
      (lockIf (hasNode x) (.node x) .update (eff w'.db) ++ held) eff w' :=
    (h.env hw').extend _ fun l hl => (mem_lockIf.1 hl).2 ▸ .inr (h.picked x hx)
  split
  · exact h₁
  · next r hr =>
    have hlock : .row (.node x) .update ∈
        lockIf (hasNode x) (.node x) .update (eff w'.db) ++ held :=
      List.mem_append_left _ (mem_lockIf.2 ⟨Option.isSome_of_eq_some hr, rfl⟩)
    refine watch_ite (fun _ => ?_) fun _ => h₁
    refine watch_bind (watch_remappedPath fun path => ?_)
    refine watch_bind (watch_mono (watch_lineageGuardUpdate h₁ hlock) ?_)
    rintro path held eff w ⟨h, hlock⟩
    refine watch_checked fun _ => ?_
    refine watch_bind (watch_mono (watch_writeLineage h hlock ?_) ?_)
    · exact fun heq => if_pos heq
    · exact fun _ _ _ _ h => h

/-- The foreign key of the new parent. -/
theorem watch_referencesParent (h : Updating d m n p rows held eff w) :
    (tree d).watch (conduct m) (referencesParent (some p))
      (fun _ => Updating d m n p rows) held eff w := by
  refine watch_references fun w' hw' => ⟨fun _ => ⟨h.tidy, .own h.target⟩, fun _ => ?_⟩
  exact (h.env hw').extend [.row (.node p) .keyShare]
    (List.forall_mem_singleton.2 (.inl (by simp [h.endpoints])))

/-! ## Up to the UPDATE -/

/-- What holds from when the endpoints are locked until the UPDATE picks its rows. -/
structure Reading (d : Db) (m : Move) (n p : Uuid) (held : List DbLock) (w : World Db Move Unit) :
    Prop extends Stance d m held id w where
  nodeId : m.nodeId = some n
  newParentId : m.newParentId = some p
  source : .row (.node n) .update ∈ held
  target : .row (.node p) .update ∈ held
  unpicked : ∀ x, .rewritePath x ∉ held

theorem Reading.env (h : Reading d m n p held w) (hw : (tree d).Env held w w') :
    Reading d m n p held w' :=
  ⟨h.toStance.env hw, h.nodeId, h.newParentId, h.source, h.target, h.unpicked⟩

theorem Reading.readPath (h : Reading d m n p held w) (x : Uuid) :
    Reading d m n p (.readPath x :: held) w where
  toStance := h.toStance.extend [.readPath x] (List.forall_mem_singleton.2 trivial)
  nodeId := h.nodeId
  newParentId := h.newParentId
  source := List.mem_cons_of_mem _ h.source
  target := List.mem_cons_of_mem _ h.target
  unpicked y hy := h.unpicked y ((List.mem_cons.1 hy).resolve_left nofun)

theorem Reading.endpoints (h : Reading d m n p held w) : m.endpoints = [n, p] := by
  rw [Move.endpoints, h.nodeId, h.newParentId]
  rfl

theorem Reading.locked (h : Reading d m n p held w) :
    ∀ x ∈ m.endpoints, .row (.node x) .update ∈ held := by
  rw [h.endpoints]
  exact List.forall_mem_cons.2 ⟨h.source, List.forall_mem_singleton.2 h.target⟩

/-- The row of the source stays. -/
theorem Reading.nodeOf_env (h : Reading d m n p held w) (hw : (tree d).Env held w w') {t : Uuid} :
    w'.db.nodeOf t n = w.db.nodeOf t n := by
  rw [nodeOf, nodeOf, hw.2 _ h.source n rfl]

/-- **The UPDATE**: the rows it picks are those of the subtree. -/
theorem watch_remapSubtree (h : Reading d m n p held w)
    (hsrc : w.db.nodeOf m.tenantId n = some src) :
    (tree d).watch (conduct m) (remapSubtree m.scan m.tenantId n p src.lineagePath dstPath)
      (fun _ => Stance d m) held id w := by
  refine watch_bind (watch_mark ?_ fun w' hw' => ⟨?_, ?_⟩)
  · intro v l hl
    obtain ⟨x, -, rfl⟩ := List.mem_map.1 hl
    trivial
  · rintro l hl x rfl
    obtain ⟨y, hy, heq⟩ := List.mem_map.1 hl
    cases heq
    refine ⟨h.locked, h.unpicked, ?_⟩
    rw [Move.rows, h.nodeId, Option.bind_some, h.nodeOf_env hw', hsrc]
    exact hy
  · have h₁ : Updating d m n p (w'.db.subtree m.tenantId n src.lineagePath)
        ((w'.db.subtree m.tenantId n src.lineagePath).map .rewritePath ++ held) id w' := by
      refine ⟨(h.env hw').toStance.extend _ fun l hl => ?_, h.endpoints,
        List.mem_append_right _ h.source, List.mem_append_right _ h.target, fun x hx => ?_⟩
      · obtain ⟨x, -, rfl⟩ := List.mem_map.1 hl
        trivial
      · exact List.mem_append_left _ (List.mem_map_of_mem hx)
    refine watch_bind (watch_mono (watch_collect
      (I := fun _ => Updating d m n p (w'.db.subtree m.tenantId n src.lineagePath)) [] h₁ ?_
      (List.nil_append _)) ?_)
    · intro done x rest held eff w hl h
      have hx : x ∈ m.scan (w'.db.subtree m.tenantId n src.lineagePath) :=
        hl ▸ List.mem_append_right _ List.mem_cons_self
      exact watch_remapRow h ((m.scan_perm _).mem_iff.1 hx)
    · intro moved held eff w h
      refine watch_bind (watch_mono (watch_forEach
        (I := fun _ => Updating d m n p (w'.db.subtree m.tenantId n src.lineagePath)) [] h ?_
        (List.nil_append _)) ?_)
      · intro _ _ _ _ _ _ _ h
        exact watch_referencesParent h
      · intro _ held eff w h
        exact watch_check fun _ => h.toStance

theorem watch_moveUnder (h : Reading d m n p held w) (hsrc : w.db.nodeOf m.tenantId n = some src) :
    (tree d).watch (conduct m) (moveUnder m.scan m.tenantId n p src) (fun _ => Stance d m) held id
      w := by
  refine watch_bind (watch_readLineage fun w₁ hw₁ => ?_)
  have h₁ := (h.env hw₁).readPath p
  split
  · trivial
  · refine watch_checked fun _ => ?_
    refine watch_checked fun _ => watch_checked fun _ => ?_
    refine watch_bind (watch_read fun w₂ hw₂ => ?_)
    refine watch_checked fun _ => ?_
    refine watch_remapSubtree (h₁.env hw₂) ?_
    rw [h₁.nodeOf_env hw₂, h.nodeOf_env hw₁, hsrc]

/-- Locking rows in ascending order. -/
theorem watch_lockRows {t : Uuid} (hsorted : rows.Pairwise (· < ·))
    (hend : ∀ x ∈ rows, x ∈ m.endpoints)
    (hthere : ∀ x ∈ rows, hasNodeOf t x d = true) :
    (tree d).watch (conduct m)
      (forEach rows fun x => do let _ ← forUpdate (.node x) (hasNodeOf t x))
      (fun _ held eff _ => eff = id ∧
        held = (rows.map fun x => DbLock.row (.node x) .update).reverse) [] id w := by
  refine watch_forEach (I := fun done held eff _ => eff = id ∧
    held = (done.map fun x => DbLock.row (.node x) .update).reverse) [] ⟨rfl, rfl⟩ ?_
    (List.nil_append rows)
  rintro done x rest _ _ w hl ⟨rfl, rfl⟩
  have hheld : ∀ l ∈ (done.map fun x => DbLock.row (.node x) .update).reverse,
      ∃ y ∈ done, l = .row (.node y) .update := by
    intro l hl
    obtain ⟨y, hy, rfl⟩ := List.mem_map.1 (List.mem_reverse.1 hl)
    exact ⟨y, hy, rfl⟩
  subst hl
  refine watch_bind (watch_forUpdate fun w' hw' => ⟨fun _ => ⟨⟨?_, ?_⟩, ?_⟩, rfl, ?_⟩)
  · intro n k hk
    obtain ⟨y, hy, heq⟩ := hheld _ hk
    cases heq
    exact .inl (hend n (List.mem_append_left _ hy))
  · intro t p name b k hk
    obtain ⟨y, -, heq⟩ := hheld _ hk
    cases heq
  · refine .endpoint fun l hl => ?_
    obtain ⟨y, hy, rfl⟩ := hheld l hl
    exact ⟨y, rfl, (List.pairwise_append.1 hsorted).2.2 y hy x List.mem_cons_self⟩
  · have hx : hasNodeOf t x w'.db = true :=
      (hw'.1 t x).trans (hthere x (List.mem_append_right _ List.mem_cons_self))
    rw [id, lockIf, if_pos hx, List.map_append, List.reverse_append]
    rfl

/-- The two endpoints, the smaller first. -/
theorem exists_sorted_endpoints (hn : m.nodeId = some n) (hp : m.newParentId = some p)
    (hne : n ≠ p) :
    ∃ low high,
      (if n < p then (n, p) else (p, n)) = (low, high) ∧ low < high ∧
      ∀ x, x ∈ [low, high] ↔ x ∈ m.endpoints := by
  have hmem : ∀ x, x ∈ m.endpoints ↔ x = n ∨ x = p := by
    intro x
    simp [Move.endpoints, hn, hp]
  by_cases hlt : n < p
  · refine ⟨n, p, if_pos hlt, hlt, fun x => ?_⟩
    rw [hmem]
    simp
  · refine ⟨p, n, if_neg hlt, BitVec.lt_of_le_ne (BitVec.not_lt.1 hlt) hne.symm, fun x => ?_⟩
    rw [hmem, or_comm]
    simp

/-- Step 1 of `move_directory`: the endpoints that are there are locked. -/
theorem watch_lockEndpoints (hn : m.nodeId = some n) (hp : m.newParentId = some p) (hne : n ≠ p) :
    (tree d).watch (conduct m) (lockEndpoints m.tenantId n p)
      (fun _ held eff _ => eff = id ∧ Tidy m held ∧ (∀ x, .rewritePath x ∉ held) ∧
        ∀ x ∈ m.endpoints, hasNodeOf m.tenantId x d = true → .row (.node x) .update ∈ held)
      [] id w := by
  obtain ⟨low, high, hpair, hlt, hmem⟩ := exists_sorted_endpoints hn hp hne
  refine watch_bind (watch_read fun w' hw' => ?_)
  rw [hpair]
  have hrows : ∀ x, x ∈ [low, high].filter (fun x => hasNodeOf m.tenantId x w'.db) ↔
      x ∈ m.endpoints ∧ hasNodeOf m.tenantId x d = true := by
    intro x
    rw [List.mem_filter, hmem, hw'.1]
  refine watch_mono (watch_lockRows ((List.pairwise_pair.2 hlt).filter _)
    (fun x hx => ((hrows x).1 hx).1) (fun x hx => ((hrows x).1 hx).2)) ?_
  rintro _ held _ _ ⟨rfl, rfl⟩
  have hheld : ∀ l, l ∈ (([low, high].filter fun x => hasNodeOf m.tenantId x (id w'.db)).map
      fun x => DbLock.row (.node x) .update).reverse ↔ ∃ x, (x ∈ m.endpoints ∧
        hasNodeOf m.tenantId x d = true) ∧ DbLock.row (.node x) .update = l := by
    intro l
    rw [List.mem_reverse, List.mem_map]
    exact exists_congr fun x => and_congr_left' (hrows x)
  refine ⟨rfl, ⟨fun x k hk => ?_, fun t q name b k hk => ?_⟩, fun x hx => ?_, fun x hx hthere => ?_⟩
  · obtain ⟨y, ⟨hy, -⟩, heq⟩ := (hheld _).1 hk
    cases heq
    exact .inl hy
  · obtain ⟨y, -, heq⟩ := (hheld _).1 hk
    cases heq
  · obtain ⟨y, -, heq⟩ := (hheld _).1 hx
    cases heq
  · exact (hheld _).2 ⟨x, ⟨hx, hthere⟩, rfl⟩

/-- `move_directory` for two different nodes. -/
theorem watch_moveNode (hn : m.nodeId = some n) (hp : m.newParentId = some p) (hne : n ≠ p) :
    (tree d).watch (conduct m) (moveNode m.scan m.tenantId n p) (fun _ => Stance d m) [] id w := by
  refine watch_bind (watch_mono (watch_lockEndpoints hn hp hne) ?_)
  rintro _ held _ w ⟨rfl, htidy, hunpicked, hlocked⟩
  refine watch_bind (watch_read fun w₁ hw₁ => ?_)
  refine watch_checked fun hthere => ?_
  obtain ⟨hn', hp'⟩ := Bool.and_eq_true_iff.1 hthere
  have hmem : n ∈ m.endpoints ∧ p ∈ m.endpoints := by simp [Move.endpoints, hn, hp]
  have h₁ : Reading d m n p held w₁ :=
    { inv := hw₁.1
      tidy := htidy
      shape := fun _ _ _ => rfl
      owned := fun _ _ => .inl rfl
      nodeId := hn
      newParentId := hp
      source := hlocked n hmem.1 ((hw₁.1 _ _).symm.trans hn')
      target := hlocked p hmem.2 ((hw₁.1 _ _).symm.trans hp')
      unpicked := hunpicked }
  refine watch_bind (watch_readLineage fun w₂ hw₂ => ?_)
  split
  · trivial
  · next src hsrc =>
    refine watch_checked fun _ => watch_checked fun _ => ?_
    exact watch_moveUnder ((h₁.env hw₂).readPath n) hsrc

/-- **`move_directory` waits in order.** -/
theorem watch_body : (tree d).watch (conduct m) m.body ((tree d).Settles m) [] id w := by
  unfold Move.body moveScanning
  split
  · next n p hn hp =>
    refine watch_ite (fun _ => trivial) fun hne => ?_
    exact watch_mono (watch_moveNode hn hp hne) fun _ _ _ _ h => h.settles
  · trivial

end

/-! ## Runs -/

section
variable {s s' : Sys Db DbLock Err Move Unit} {i : Nat}

/-- Replacing a move. -/
theorem Separate.put (h : Separate s)
    (hown : ∀ j u n, j ≠ i → s.txns[j]? = some u → .rewritePath n ∈ t.held →
      n ∈ t.call.endpoints ∨ concerns u n = false)
    (hother : ∀ j u n, j ≠ i → s.txns[j]? = some u → .rewritePath n ∈ u.held →
      n ∈ u.call.endpoints ∨ concerns t n = false) : Separate (s.put i t) := by
  refine ⟨fun {j k u v n} hjk hj hk hn => ?_⟩
  rw [Sys.getElem?_put] at hj hk
  split at hj
  · next hij =>
    cases hj
    obtain ⟨rfl, -⟩ := hij
    rw [if_neg (by rintro ⟨heq, -⟩; exact hjk heq)] at hk
    exact hown k v n hjk.symm hk hn
  · split at hk
    · next hik =>
      cases hk
      obtain ⟨rfl, -⟩ := hik
      exact hother j u n hjk hj hn
    · exact h.picked hjk hj hk hn

/-- A move that ends. -/
theorem Separate.ended (h : Separate s) (hheld : t.held = []) (hover : t.phase.isOver = true) :
    Separate (s.put i t) := by
  refine h.put (fun j u n _ _ hn => ?_) fun j u n _ _ _ => .inr ?_
  · rw [hheld] at hn
    cases hn
  · rw [concerns_eq_false_iff, hheld, hover]
    exact ⟨List.not_mem_nil, nofun⟩

/-- The rows that a step picks, if the moves are disjoint there. -/
theorem picked_of_disjoint {d : Db} (hwatched : (tree d).Watched conduct s)
    {waits takes : Db → List DbLock} {write : Db → Db → Db} {next : Db → Stmt Unit}
    (hdis : disjoint s (.exec i) = true) (hi : s.txns[i]? = some t)
    (hphase : t.phase = .running (.step waits takes write next)) {n : Uuid}
    (hn : .rewritePath n ∈ takes (t.eff s.world.db)) {j : Nat} {u : Tx Db DbLock Err Move Unit}
    (hj : s.txns[j]? = some u) (hji : j ≠ i) : n ∈ t.call.endpoints ∨ concerns u n = false := by
  rcases hwatched.takes hi hphase hn with ⟨-, hmark⟩ | hwait
  · obtain ⟨hlocked, hunpicked, hrow⟩ := hmark n rfl
    have hat : atUpdate t = true := by
      rw [atUpdate, Bool.and_eq_true, List.all_eq_true, List.all_eq_true]
      refine ⟨fun x hx => List.contains_iff_mem.2 (hlocked x hx), fun l hl => ?_⟩
      split
      · exact absurd hl (hunpicked _)
      · rfl
    simp only [disjoint, hi, hat, Bool.not_true, Bool.false_or, List.all_eq_true, Bool.or_eq_true,
      List.contains_iff_mem, Bool.not_eq_true'] at hdis
    refine (hdis n hrow).imp_right fun hall => hall u ?_
    exact List.mem_eraseIdx_iff_getElem?.2 ⟨j, hji, hj⟩
  · cases ((hwatched.safe hi hphase s.world (Protocol.Env.refl hwatched.inv)).2.1 _ hwait).2

/-- **One action** keeps the moves separate, if they are disjoint there. -/
theorem Separate.does {d : Db} {a : Action Move} (h : Separate s)
    (hwatched : (tree d).Watched conduct s) (hdis : disjoint s a = true)
    (hd : Sys.Does Move.body s a s') : Separate s' := by
  cases hd with
  | start m =>
    refine ⟨fun {i j t u n} hij hi hj hn => ?_⟩
    rcases Sys.getElem?_start hi with hi | ⟨-, rfl⟩
    · rcases Sys.getElem?_start hj with hj | ⟨-, rfl⟩
      · exact h.picked hij hi hj hn
      · simp only [disjoint, List.all_eq_true, Bool.or_eq_true, List.contains_iff_mem,
          Bool.not_eq_true', ← Bool.not_eq_true] at hdis
        by_cases hend : n ∈ m.endpoints
        · exact .inl ((hdis t (List.mem_of_getElem? hi) n hend).resolve_right fun hno => hno hn)
        · exact .inr (concerns_eq_false_iff.2 ⟨List.not_mem_nil, fun _ => hend⟩)
    · cases hn
  | raise hi => exact h.ended rfl rfl
  | @step i m held eff waits takes write next hi hf =>
    refine h.put (fun j u n hne hj hn => ?_) fun j u n hne hj hn => ?_
    · rcases List.mem_append.1 hn with hn | hn
      · exact picked_of_disjoint hwatched hdis hi rfl hn hj hne
      · have hold := h.picked hne.symm hi hj hn
        exact hold
    · rcases h.picked hne hj hi hn with hend | hno
      · exact .inl hend
      · obtain ⟨hheld, hend⟩ := concerns_eq_false_iff.1 hno
        refine .inr (concerns_eq_false_iff.2 ⟨fun hmem => ?_, hend⟩)
        rcases List.mem_append.1 hmem with htakes | hmem
        · rcases picked_of_disjoint hwatched hdis hi rfl htakes hj hne with hown | hno
          · exact hend rfl hown
          · exact (concerns_eq_false_iff.1 hno).1 hn
        · exact hheld hmem
  | @commit i m held eff r hi =>
    have hput : Separate (s.put i ⟨m, [], eff, .committed r⟩) := h.ended rfl rfl
    exact ⟨hput.picked⟩
  | abort hi => exact h.ended rfl rfl

end

/-- **Disjoint moves never deadlock.** In a run, from any namespace and with any scan orders, in
which no move updates a row that another running one has as an endpoint or updates as well, its own
endpoints apart, no state has a cycle of moves waiting for each other. -/
theorem move_not_deadlocked (d : Db) (as : List (Action Move)) (s : Sys Db DbLock Err Move Unit)
    (hdis : Run.throughout (Sys.step Move.body) disjoint (Sys.init d) as = true)
    (hrun : Run.run (Sys.step Move.body) (Sys.init d) as = some s) : ¬s.Deadlocked := by
  have hinit : Separate (Sys.init d) := ⟨fun _ hi => by simp [Sys.init] at hi⟩
  obtain ⟨hwatched, hsep⟩ : (tree d).Watched conduct s ∧ Separate s := by
    refine Run.run_induction (I := fun s => (tree d).Watched conduct s ∧ Separate s) ?_
      ⟨watched_init fun _ _ => rfl, hinit⟩ hdis hrun
    rintro s a s' ⟨hwatched, hsep⟩ hdis hstep
    have hd := Sys.does_of_step hstep
    exact ⟨hwatched.does (fun _ _ _ _ => watch_body) hd, hsep.does hwatched hdis hd⟩
  refine Sys.not_deadlocked_of_rank rank fun hi hj hk => ?_
  obtain ⟨_, _, _, _, hphase, -⟩ := hk.waiting
  refine (hwatched.waitsOver hj).2.rank_lt ?_ ?_ (hwatched.waitsOver hk).1 hi.held hj.held
    hj.conflict
    (hwatched.apart hj.waiter hj.holder hj.apart)
  · exact fun n hn => hsep.picked hj.apart hj.waiter hj.holder hn
  · rw [hphase]
    rfl

/-! ## Two moves on one branch -/

/-- The root 1 has the children 5 and 6; below 5 is 4, and below that is 3. -/
def nested : Db :=
  .seed (AList.singleton 1 ⟨100, 0⟩)
    (((((AList.singleton 1 ⟨1, none, ['r'], .directory, [Uuid.nodeLabel 1], 1, false⟩ :
      Table Uuid NodeRow).insert 5
        ⟨1, some 1, ['e'], .directory, [1, 5].map Uuid.nodeLabel, 1, false⟩).insert 4
        ⟨1, some 5, ['d'], .directory, [1, 5, 4].map Uuid.nodeLabel, 1, false⟩).insert 3
        ⟨1, some 4, ['c'], .directory, [1, 5, 4, 3].map Uuid.nodeLabel, 1, false⟩).insert 6
        ⟨1, some 1, ['f'], .directory, [1, 6].map Uuid.nodeLabel, 1, false⟩)
    ∅

/-- One move takes 5 below 6, and gets to its UPDATE; the other takes 3 below 5, and gets to its
second endpoint. -/
def moveWithinMoved : List (Action Move) :=
  [.start (.inTableOrder 1 (some 5) (some 6)), .start (.inTableOrder 1 (some 3) (some 5))] ++
    List.replicate 8 (.exec 0) ++ List.replicate 2 (.exec 1)

/-- One move takes 5 below 6, and gets to its UPDATE; the other takes 6 below 5. -/
def oppositeMoves : List (Action Move) :=
  [.start (.inTableOrder 1 (some 5) (some 6)), .start (.inTableOrder 1 (some 6) (some 5))] ++
    List.replicate 8 (.exec 0) ++ List.replicate 1 (.exec 1)

/-- **Two moves wait for each other**: one for the row 3, which is in its subtree and an endpoint of
the other, and that one for the row 5, an endpoint of the first. -/
theorem moves_deadlock :
    ∃ s, Run.run (Sys.step Move.body) (Sys.init nested) moveWithinMoved = some s ∧
      s.Deadlocked := by
  have hrun : (Run.run (Sys.step Move.body) (Sys.init nested) moveWithinMoved).map
      (fun s => (s.waits 0 1, s.waits 1 0)) = some (true, true) := by
    decide +kernel
  obtain ⟨s, hs, h01, h10⟩ := exists_of_map_eq_pair hrun
  exact ⟨s, hs, 0, .tail (.single h01) h10⟩

theorem move_not_deadlocked_oppositeMoves :
    ∃ s, Run.run (Sys.step Move.body) (Sys.init nested) oppositeMoves = some s ∧
      s.waits 1 0 = true ∧ ¬s.Deadlocked := by
  have hrun : (Run.run (Sys.step Move.body) (Sys.init nested) oppositeMoves).map
      (fun s => s.waits 1 0) = some true := by
    decide +kernel
  have hdis : Run.throughout (Sys.step Move.body) disjoint
      (Sys.init nested) oppositeMoves = true := by
    decide +kernel
  obtain ⟨s, hs, hwaits⟩ := Option.map_eq_some_iff.1 hrun
  exact ⟨s, hs, hwaits, move_not_deadlocked nested oppositeMoves s hdis hs⟩

end Aegis.Namespace
