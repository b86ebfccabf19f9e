import Aegis.Namespace.Move

/-!
# Direct UPDATEs and the setting `aegis.allow_move`

The trigger `nodes_lineage_guard` lets an UPDATE change `parent_id` or `lineage_path` while
`aegis.allow_move` is on, and `move_directory` turns it on with `set_config(…, true)`: for the rest
of the transaction, not for its own statement. So transactions are modelled as sequences of
`move_directory` calls and direct UPDATEs with the setting handed from one to the next. The guard
rejects a direct UPDATE just if no move has come before it (`reparent_guard_iff`), and what keeps
the namespace a tree is that no direct UPDATE comes after a move.
-/

namespace Aegis.Db

/-- The SET clause of a direct UPDATE for one row, with the path the trigger settles on. -/
def setPlace (n : Uuid) (parentId : Option Uuid) (path : LTree) (d : Db) : Db :=
  { d with
    nodes :=
      Table.modify n (fun r => { r with parentId := parentId, lineagePath := path }) d.nodes }

end Aegis.Db

namespace Aegis.Namespace

open Db Stmt Txn.Prog

variable {d e : Db} {n x : Uuid} {r : NodeRow}

/-! ## Direct UPDATEs -/

/-- `UPDATE namespace_nodes SET parent_id = …, lineage_path = … WHERE …`: what the expressions give
for a row, on the snapshot of the statement. -/
structure DirectUpdate where
  picks : Db → Uuid → NodeRow → Bool
  parentId : Db → Uuid → NodeRow → Option Uuid
  lineagePath : Db → Uuid → NodeRow → LTree

/-- The write of one row, with the check of the unique indexes if `parent_id` changes, and an entry
in the index of paths for a new path. -/
def writePlace (n : Uuid) (old new : NodeRow) : Stmt Unit :=
  if new.parentId = old.parentId then do
    let _ ← stmt (fun _ => []) (fun _ => []) (fun _ => setPlace n new.parentId new.lineagePath)
    if new.lineagePath ≠ old.lineagePath then indexLineage new.lineagePath
  else do
    let v ← stmt (fun _ => slotLocks new) (fun _ => slotLocks new)
      (fun _ => setPlace n new.parentId new.lineagePath)
    check (!slotTaken n new v) (.uniqueViolation (slotConstraint new))
    indexLineage new.lineagePath

/-- One row of a direct UPDATE: lock it, re-evaluate the WHERE clause, and rewrite it through the
trigger. Returns the parent, and whether it changed, if the row was updated. -/
def updateRow (allowMove : Bool) (u : DirectUpdate) (s : Db) (n : Uuid) :
    Stmt (Option (Option Uuid × Bool)) := do
  let v ← forUpdate (.node n) (hasNode n)
  match v.nodes.lookup n with
  | none => return none
  | some r =>
    if u.picks s n r then
      let parentId := u.parentId s n r
      let path ← lineageGuardUpdate allowMove n r
        { r with parentId := parentId, lineagePath := u.lineagePath s n r }
      writePlace n r { r with parentId := parentId, lineagePath := path }
      return some (parentId, parentId != r.parentId)
    else return none

/-- A direct UPDATE: the rows its snapshot picks, then the foreign keys of the new parents. -/
def updateNodes (allowMove : Bool) (u : DirectUpdate) : Stmt Unit := do
  let s ← read
  let updated ← collect (s.nodes.keysWhere (u.picks s)) (updateRow allowMove u s)
  forEach (updated.filter (·.2)) fun c => referencesParent c.1

/-! ## Transactions -/

/-- A statement of a transaction. -/
inductive Item
  | move (tenantId : Uuid) (nodeId newParentId : Option Uuid)
  | update (u : DirectUpdate)

def Item.isMove : Item → Bool
  | .move _ _ _ => true
  | .update _ => false

/-- A statement run with the setting `allowMove`, and the setting it leaves. -/
def Item.body (allowMove : Bool) : Item → Stmt Bool
  | .move tenantId nodeId newParentId => do
    moveDirectory tenantId nodeId newParentId
    -- `set_config('aegis.allow_move', 'on', true)` lasts until the end of the transaction
    return true
  | .update u => do
    updateNodes allowMove u
    return allowMove

/-- The statements of a transaction, one after another. -/
def transaction : Bool → List Item → Stmt Bool
  | allowMove, [] => return allowMove
  | allowMove, i :: items => do
    let allowMove ← i.body allowMove
    transaction allowMove items

/-- The database after a transaction: as it commits, or as it was if a statement raises. -/
def afterTransaction (d : Db) (items : List Item) : Db :=
  match (transaction false items).alone d with
  | .ok (_, d') => d'
  | .error _ => d

/-- The database after transactions, one after another. -/
def committed (d : Db) (txs : List (List Item)) : Db := txs.foldl afterTransaction d

/-- The UPDATE gives a row another parent or another path. -/
def DirectUpdate.Changes (u : DirectUpdate) (d : Db) : Prop :=
  ∃ n r, d.nodes.lookup n = some r ∧ u.picks d n r = true ∧
    (u.parentId d n r ≠ r.parentId ∨ u.lineagePath d n r ≠ r.lineagePath)

/-- The errors of the guard. -/
def IsGuardError (err : Err) : Prop := err = .directReparentForbidden ∨ err = .lineageTamper

/-! ## The guard is closed -/

/-- The UPDATE leaves the row as it is. -/
def DirectUpdate.Leaves (u : DirectUpdate) (d : Db) (n : Uuid) : Prop :=
  ∀ r, d.nodes.lookup n = some r →
    u.parentId d n r = r.parentId ∧ u.lineagePath d n r = r.lineagePath

theorem DirectUpdate.changes_iff {u : DirectUpdate} :
    u.Changes d ↔ ¬ ∀ n ∈ d.nodes.keysWhere (u.picks d), u.Leaves d n := by
  constructor
  · rintro ⟨n, r, hr, hpicks, hchange⟩ hall
    obtain ⟨hparent, hpath⟩ := hall n (Table.mem_keysWhere.2 ⟨r, hr, hpicks⟩) r hr
    rcases hchange with hchange | hchange
    · exact hchange hparent
    · exact hchange hpath
  · intro hnot
    by_contra hnone
    refine hnot fun n hn r hr => ?_
    obtain ⟨r', hr', hpicks⟩ := Table.mem_keysWhere.1 hn
    cases hr.symm.trans hr'
    constructor
    · by_contra hparent
      exact hnone ⟨n, r, hr, hpicks, .inl hparent⟩
    · by_contra hpath
      exact hnone ⟨n, r, hr, hpicks, .inr hpath⟩

/-- The same rows. -/
def SameRows (d e : Db) : Prop := ∀ x, e.nodes.lookup x = d.nodes.lookup x

section Closed

variable {u : DirectUpdate} (hsame : SameRows d e) (hr : d.nodes.lookup n = some r)
  (hpicks : u.picks d n r = true)
include hsame hr hpicks

/-- One row of an UPDATE up to the trigger. -/
theorem updateRow_alone (allowMove : Bool) :
    (updateRow allowMove u d n).alone e =
      ((lineageGuardUpdate allowMove n r
        { r with parentId := u.parentId d n r, lineagePath := u.lineagePath d n r }).bind
        fun path => (writePlace n r
          { r with parentId := u.parentId d n r, lineagePath := path }).bind
          fun _ => ret (some (u.parentId d n r, u.parentId d n r != r.parentId))).alone e := by
  rw [updateRow, bind_eq, forUpdate, acquire, alone_stmt_bind, hsame, hr]
  dsimp only
  rw [if_pos hpicks]
  rfl

theorem updateRow_leaves (hleaves : u.Leaves d n) :
    ∃ b e', (updateRow false u d n).alone e = .ok (some b, e') ∧ SameRows d e' := by
  obtain ⟨hparent, hpath⟩ := hleaves r hr
  have hguard : (lineageGuardUpdate false n r
      { r with parentId := u.parentId d n r, lineagePath := u.lineagePath d n r }).alone e =
        .ok (r.lineagePath, e) := by
    rw [lineageGuardUpdate, if_pos hparent, bind_eq, alone_check_bind, hpath, beq_self_eq_true]
    rfl
  have hwrite : (writePlace n r { r with
      parentId := u.parentId d n r, lineagePath := r.lineagePath }).alone e =
        .ok ((), setPlace n r.parentId r.lineagePath e) := by
    rw [writePlace, if_pos hparent, hparent, bind_eq, alone_stmt_bind, if_neg fun hne => hne rfl]
    rfl
  refine ⟨(r.parentId, false), setPlace n r.parentId r.lineagePath e, ?_, fun x => ?_⟩
  · rw [updateRow_alone hsame hr hpicks, alone_bind_of_ok hguard, alone_bind_of_ok hwrite, hparent,
      bne_self_eq_false]
    rfl
  · rw [setPlace, Table.lookup_modify]
    split
    · next hx =>
      rw [hx, hsame, hr]
      rfl
    · exact hsame x

theorem updateRow_changes (hchanges : ¬ u.Leaves d n) :
    ∃ err, (updateRow false u d n).alone e = .error err ∧ IsGuardError err := by
  rw [updateRow_alone hsame hr hpicks]
  by_cases hparent : u.parentId d n r = r.parentId
  · have hpath : u.lineagePath d n r ≠ r.lineagePath := by
      intro hpath
      refine hchanges fun r' hr' => ?_
      cases hr.symm.trans hr'
      exact ⟨hparent, hpath⟩
    have hguard : (lineageGuardUpdate false n r { r with
        parentId := u.parentId d n r, lineagePath := u.lineagePath d n r }).alone e =
          .error .lineageTamper := by
      rw [lineageGuardUpdate, if_pos hparent, bind_eq, alone_check_bind, Bool.or_false,
        if_neg (by simpa using hpath)]
    exact ⟨_, alone_bind_of_error hguard, .inr rfl⟩
  · have hguard : (lineageGuardUpdate false n r { r with
        parentId := u.parentId d n r, lineagePath := u.lineagePath d n r }).alone e =
          .error .directReparentForbidden := by
      rw [lineageGuardUpdate, if_neg hparent]
      rfl
    exact ⟨_, alone_bind_of_error hguard, .inl rfl⟩

end Closed

/-- **With the setting off**, an UPDATE that changes a row is rejected by the guard, and another one
leaves every row. -/
theorem updateNodes_closed (u : DirectUpdate) (d : Db) :
    (u.Changes d ∧ ∃ err, (updateNodes false u).alone d = .error err ∧ IsGuardError err) ∨
    ¬ u.Changes d ∧ ∀ d', (updateNodes false u).alone d = .ok ((), d') → SameRows d d' := by
  have hrows := alone_collect (f := updateRow false u d) (P := u.Leaves d) (Q := IsGuardError)
    (I := fun left e => (∀ n ∈ left, n ∈ d.nodes.keysWhere (u.picks d)) ∧ SameRows d e)
    (l := d.nodes.keysWhere (u.picks d)) (d := d) ?_ ?_ ⟨fun _ hn => hn, fun _ => rfl⟩
  · rw [updateNodes, bind_eq, alone_read_bind, bind_eq, DirectUpdate.changes_iff]
    rcases hrows with ⟨hall, bs, e, hbs, -, -, hsame⟩ | ⟨hnot, err, herr, hguard⟩
    · refine .inr ⟨not_not_intro hall, fun d' hok => ?_⟩
      rw [alone_bind_of_ok hbs] at hok
      obtain rfl : e = d' := Txn.Prog.Within.alone Eq.refl Eq.trans
        (Txn.Prog.Within.forEach (fun _ => referencesParent_within Eq.refl) _) hok
      exact hsame
    · exact .inl ⟨hnot, err, alone_bind_of_error herr, hguard⟩
  · rintro n left e ⟨hleft, hsame⟩ hleaves
    obtain ⟨r, hr, hpicks⟩ := Table.mem_keysWhere.1 (hleft n List.mem_cons_self)
    obtain ⟨b, e', hok, hsame'⟩ := updateRow_leaves hsame hr hpicks hleaves
    exact ⟨b, e', hok, fun m hm => hleft m (List.mem_cons_of_mem n hm), hsame'⟩
  · rintro n left e ⟨hleft, hsame⟩ hchanges
    obtain ⟨r, hr, hpicks⟩ := Table.mem_keysWhere.1 (hleft n List.mem_cons_self)
    exact updateRow_changes hsame hr hpicks hchanges

/-! ## The guard is open -/

theorem lineageGuardUpdate_open :
    (lineageGuardUpdate true n old new).Raises fun err => ¬ IsGuardError err := by
  unfold lineageGuardUpdate
  refine Raises.ite ?_ ?_
  · rw [Bool.or_true]
    exact Raises.ret
  · refine Raises.bind (p := check true _) Raises.ret fun _ => ?_
    split
    · simp [Raises, IsGuardError]
    · refine Raises.bind Raises.stmt fun v => ?_
      split
      · simp [Raises, IsGuardError]
      · refine (Raises.check (by simp [IsGuardError])).bind fun _ => ?_
        exact Raises.bind (Raises.check (by simp [IsGuardError])) fun _ => Raises.ret

theorem writePlace_open : (writePlace n old new).Raises fun err => ¬ IsGuardError err := by
  have hindex : ∀ path, (indexLineage path).Raises fun err => ¬ IsGuardError err :=
    fun _ => Raises.check (by simp [IsGuardError])
  refine Raises.ite (Raises.bind Raises.stmt fun _ => Raises.ite (hindex _) Raises.ret) ?_
  refine Raises.bind Raises.stmt fun _ => ?_
  exact (Raises.check (by simp [IsGuardError])).bind fun _ => hindex _

/-- **With the setting on**, the guard rejects nothing. -/
theorem updateNodes_open (u : DirectUpdate) :
    (updateNodes true u).Raises fun err => ¬ IsGuardError err := by
  refine Raises.bind Raises.stmt fun s => Raises.bind (Raises.collect (fun n => ?_) _) fun _ =>
    Raises.forEach (fun c => ?_) _
  · refine Raises.bind Raises.stmt fun v => ?_
    split
    · exact Raises.ret
    · refine Raises.ite ?_ Raises.ret
      refine lineageGuardUpdate_open.bind fun path => ?_
      exact writePlace_open.bind fun _ => Raises.ret
  · cases c.1 with
    | none => exact Raises.ret
    | some p => exact Raises.bind Raises.stmt fun _ => Raises.check (by simp [IsGuardError])

/-! ## Runs of statements -/

/-- The setting after a sequence of statements. -/
theorem transaction_flag (h : (transaction b items).alone d = .ok (b', e)) :
    b' = (b || items.any Item.isMove) := by
  induction items generalizing b d with
  | nil =>
    cases h
    exact (Bool.or_false _).symm
  | cons i items ih =>
    obtain ⟨b₁, d₁, hi, h⟩ := alone_bind_ok h
    rw [ih h, List.any_cons, ← Bool.or_assoc]
    congr 1
    cases i with
    | move t n p =>
      obtain ⟨_, d₂, -, hret⟩ := alone_bind_ok hi
      cases hret
      exact (Bool.or_true b).symm
    | update u =>
      obtain ⟨_, d₂, -, hret⟩ := alone_bind_ok hi
      cases hret
      exact (Bool.or_false b).symm

/-- No direct UPDATE comes after a move; `b` says that one has been made before. -/
def UpdatesFirst (b : Bool) (items : List Item) : Prop :=
  ∀ before u later, items = before ++ .update u :: later →
    b = false ∧ ∀ i ∈ before, i.isMove = false

theorem UpdatesFirst.tail (h : UpdatesFirst b (i :: items)) :
    UpdatesFirst (b || i.isMove) items := by
  intro before u later heq
  obtain ⟨hb, hbefore⟩ := h (i :: before) u later (by rw [heq]; rfl)
  refine ⟨?_, fun j hj => hbefore j (List.mem_cons_of_mem i hj)⟩
  rw [hb, hbefore i List.mem_cons_self]
  rfl

/-- **A transaction** in which no direct UPDATE comes after a move keeps the tree. -/
theorem tree_transaction (hd : Tree d) (hitems : UpdatesFirst b items)
    (h : (transaction b items).alone d = .ok (b', e)) : Tree e := by
  induction items generalizing b d with
  | nil =>
    cases h
    exact hd
  | cons i items ih =>
    obtain ⟨b₁, d₁, hi, h⟩ := alone_bind_ok h
    have htail := hitems.tail
    cases i with
    | move t n p =>
      obtain ⟨⟨⟩, d₂, hmove, hret⟩ := alone_bind_ok hi
      cases hret
      have htree := PlaceCall.tree_alone (c := .move t n p) hd hmove
      rw [Item.isMove, Bool.or_true] at htail
      exact ih htree htail h
    | update u =>
      obtain ⟨⟨⟩, d₂, hupdate, hret⟩ := alone_bind_ok hi
      cases hret
      obtain ⟨hb, -⟩ := hitems [] u items rfl
      rw [Item.isMove, Bool.or_false] at htail
      rw [hb] at hupdate
      rcases updateNodes_closed u d with ⟨-, err, herr, -⟩ | ⟨-, hsame⟩
      · cases hupdate.symm.trans herr
      · refine ih (hd.congr fun x => ?_) htail h
        rw [hsame _ hupdate x]

theorem tree_committed (hd : Tree d) (htxs : ∀ tx ∈ txs, UpdatesFirst false tx) :
    Tree (committed d txs) := by
  induction txs generalizing d with
  | nil => exact hd
  | cons tx txs ih =>
    refine ih ?_ fun tx' htx' => htxs tx' (List.mem_cons_of_mem tx htx')
    rw [afterTransaction]
    split
    · next hok => exact tree_transaction hd (htxs tx List.mem_cons_self) hok
    · exact hd

/-- **The reparent guard.** A direct UPDATE that changes a row is rejected by the guard just if no
`move_directory` has come before it in its transaction. If no transaction has a direct UPDATE after
a move, then after all of them the parent graph has no cycle and every path is exact. -/
theorem reparent_guard_iff (d : Db) :
    (∀ (before : List Item) (b : Bool) (d₁ : Db) (u : DirectUpdate),
      (transaction false before).alone d = .ok (b, d₁) → u.Changes d₁ →
      ((∃ err, ((Item.update u).body b).alone d₁ = .error err ∧ IsGuardError err) ↔
        ∀ i ∈ before, i.isMove = false)) ∧
    ∀ txs : List (List Item), Tree d →
      (∀ tx ∈ txs, ∀ before u later, tx = before ++ .update u :: later →
        ∀ i ∈ before, i.isMove = false) →
      (∀ x, ¬ Relation.TransGen (Parent (committed d txs)) x x) ∧
        (committed d txs).pathsExact = true := by
  constructor
  · intro before b d₁ u hbefore hchanges
    have hflag := transaction_flag hbefore
    rw [Bool.false_or] at hflag
    rw [Item.body]
    cases hb : b with
    | false =>
      rw [hb] at hflag
      refine iff_of_true ?_ ?_
      · rcases updateNodes_closed u d₁ with ⟨-, err, herr, hguard⟩ | ⟨hnot, -⟩
        · exact ⟨err, alone_bind_of_error herr, hguard⟩
        · exact absurd hchanges hnot
      · intro i hi
        simpa using List.any_eq_false.1 hflag.symm i hi
    | true =>
      rw [hb] at hflag
      refine iff_of_false ?_ ?_
      · rintro ⟨err, herr, hguard⟩
        exact ((updateNodes_open u).bind fun _ => Raises.ret).alone herr hguard
      · intro hnone
        obtain ⟨i, hi, hmove⟩ := List.any_eq_true.1 hflag.symm
        rw [hnone i hi] at hmove
        cases hmove
  · intro txs hd htxs
    have htree := tree_committed hd fun tx htx before u later heq =>
      ⟨rfl, htxs tx htx before u later heq⟩
    refine ⟨?_, pathsExact_iff.2 htree.lined⟩
    rw [← child_forest]
    exact htree.lined.acyclic

/-- `UPDATE namespace_nodes SET parent_id = c WHERE node_id = a`. -/
def reparentA : DirectUpdate where
  picks _ n _ := n == 3
  parentId _ _ _ := some 5
  lineagePath _ _ r := r.lineagePath

theorem changes_reparentA (h : (d.nodes.lookup 3).map NodeRow.parentId = some (some 2)) :
    reparentA.Changes d := by
  obtain ⟨r, hr, hparent⟩ := Option.map_eq_some_iff.1 h
  refine ⟨3, r, hr, rfl, .inl ?_⟩
  rw [hparent]
  show some (5 : Uuid) ≠ some 2
  decide

/-- At the beginning of a transaction the UPDATE is rejected. -/
theorem reparent_guard_iff_first :
    (∃ err, ((Item.update reparentA).body false).alone threeDirectories = .error err ∧
      IsGuardError err) ∧
    (committed threeDirectories [[.move 1 (some 4) (some 3)]]).pathsExact = true := by
  obtain ⟨hguard, hcommitted⟩ := reparent_guard_iff threeDirectories
  refine ⟨(hguard [] false threeDirectories reparentA rfl
    (changes_reparentA (by decide +kernel))).2 nofun, ?_⟩
  refine (hcommitted [[.move 1 (some 4) (some 3)]] tree_threeDirectories ?_).2
  intro tx htx before u later heq i hi
  rw [List.mem_singleton.1 htx] at heq
  cases before with
  | nil => cases heq
  | cons j before =>
    obtain ⟨-, heq⟩ := List.cons.inj heq
    cases before with
    | nil => cases heq
    | cons k before => cases heq

/-- The parents of `a` and `c`, and whether paths are exact, after statements that succeed. -/
def outcome (items : List Item) : Option (Option (Option Uuid) × Option (Option Uuid) × Bool) :=
  ((transaction false items).alone threeDirectories).toOption.map fun res =>
    ((res.2.nodes.lookup 3).map NodeRow.parentId, (res.2.nodes.lookup 5).map NodeRow.parentId,
      res.2.pathsExact)

theorem exists_of_outcome (h : outcome items = some (a, c, paths)) :
    ∃ b d', (transaction false items).alone threeDirectories = .ok (b, d') ∧
      (d'.nodes.lookup 3).map NodeRow.parentId = a ∧
      (d'.nodes.lookup 5).map NodeRow.parentId = c ∧ d'.pathsExact = paths := by
  unfold outcome at h
  cases hrun : (transaction false items).alone threeDirectories with
  | error err =>
    rw [hrun] at h
    cases h
  | ok res =>
    rw [hrun] at h
    cases h
    exact ⟨res.1, res.2, rfl, rfl, rfl, rfl⟩

/-- `b` is moved to `a`, and then the UPDATE puts `a` into `c`, which is in `a`: the transaction
commits, `a` is its own ancestor, and paths are not exact. -/
theorem reparent_after_move :
    Tree threeDirectories ∧
    (∃ b d₁, (transaction false [.move 1 (some 4) (some 3)]).alone threeDirectories =
      .ok (b, d₁) ∧ reparentA.Changes d₁) ∧
    ∃ b d', (transaction false [.move 1 (some 4) (some 3), .update reparentA]).alone
        threeDirectories = .ok (b, d') ∧
      Relation.TransGen (Parent d') 3 3 ∧ d'.pathsExact = false := by
  have hmove : outcome [.move 1 (some 4) (some 3)] = some (some (some 2), some (some 3), true) := by
    decide +kernel
  have hboth : outcome [.move 1 (some 4) (some 3), .update reparentA] =
      some (some (some 5), some (some 3), false) := by decide +kernel
  obtain ⟨b₁, d₁, hok₁, ha₁, -, -⟩ := exists_of_outcome hmove
  obtain ⟨b, d', hok, ha, hc, hpaths⟩ := exists_of_outcome hboth
  refine ⟨tree_threeDirectories, ⟨b₁, d₁, hok₁, changes_reparentA ha₁⟩, b, d', hok, ?_, hpaths⟩
  exact .head (Option.map_eq_some_iff.1 ha) (.single (Option.map_eq_some_iff.1 hc))

end Aegis.Namespace
