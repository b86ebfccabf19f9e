import Aegis.Ingress.Writes

/-!
# Version numbers and sessions under concurrent commits

Any number of `CommitFile` and `CommitFileVersion` transactions run together, over any sessions and
nodes. The lock that `next_version_number` takes on the node row is what makes the greatest number
it reads stay the greatest until the transaction ends (`Numbered`), and the lock on the session row
is what makes the status it read stay so (`OnSession`). From this every commit adds exactly the next
number to its node and uses up its session (`Outcome`), and so the numbers that the journal shows
for a node are 1, 2, …, n in the order of the commits.
-/

namespace Aegis.Db

/-- What a new version row does to the versions of a node. -/
theorem versionNumbers_insertVersion (v : Uuid) (r : VersionRow) (d : Db) (n : Uuid) :
    (d.insertVersion v r).versionNumbers n =
      if hasVersion v d = false ∧ r.nodeId = n then r.versionNumber :: d.versionNumbers n
      else d.versionNumbers n := by
  rw [hasVersion]
  cases hv : (d.versions.lookup v).isSome with
  | true => simp [insertVersion, Table.insertNew, versionNumbers, hv]
  | false =>
    have habsent : v ∉ d.versions := by
      rw [← AList.lookup_isSome]
      simpa using hv
    simp only [insertVersion, Table.insertNew, versionNumbers, hv, Bool.false_eq_true, if_false,
      AList.entries_insert_of_notMem habsent, List.filter_cons, beq_iff_eq, true_and]
    split <;> rfl

theorem lookup_insertVersion (v : Uuid) (r : VersionRow) (d : Db) (v' : Uuid) :
    (d.insertVersion v r).versions.lookup v' =
      if v' = v then some ((d.versions.lookup v').getD r) else d.versions.lookup v' :=
  Table.lookup_insertNew v v' r d.versions

end Aegis.Db

namespace Aegis.Ingress

open Db Stmt Cas Txn Txn.Footprint

/-! ## The history of commits -/

/-- The node a commit is for, as the sessions of `d` name it. -/
def CommitCall.node (d : Db) : CommitCall → Option Uuid
  | file a => (d.sessions.lookup a.sessionId).bind SessionRow.nodeId
  | version a => some a.nodeId

/-- A `CommitFile` call on session `sid`. -/
def CommitCall.isFileOf (sid : Uuid) : CommitCall → Bool
  | file a => a.sessionId == sid
  | version _ => false

/-- The version number a commit returned. -/
def CommitRes.number : CommitRes → Int
  | file _ number => number
  | version number => number

/-- Commits in order. -/
abbrev History : Type := List (Txn.Commit Db CommitCall CommitRes)

/-- The version numbers that the commits for a node returned, in commit order. -/
def numbersOn (d : Db) (n : Uuid) (j : History) : List Int :=
  (j.filter fun c => c.call.node d == some n).map fun c => c.res.number

/-- The `CommitFile` commits on a session. -/
def commitsOf (sid : Uuid) (j : History) : History := j.filter fun c => c.call.isFileOf sid

/-- The numbers 1, 2, …, k. -/
def upTo (k : Nat) : List Int := (List.range k).map fun i : Nat => (i : Int) + 1

theorem upTo_succ (k : Nat) : upTo (k + 1) = upTo k ++ [(k : Int) + 1] := by
  simp [upTo, List.range_succ]

theorem mem_upTo : i ∈ upTo k ↔ 1 ≤ i ∧ i ≤ k := by
  simp only [upTo, List.mem_map, List.mem_range]
  constructor
  · rintro ⟨j, hj, rfl⟩
    omega
  · rintro ⟨h1, hk⟩
    exact ⟨(i - 1).toNat, by omega, by omega⟩

variable {n : Uuid}

/-- The greatest of the numbers up to `k` is `k`. -/
theorem maxVersion_eq {d : Db} (h : d.versionNumbers n = (upTo k).reverse) :
    d.maxVersion n = k := by
  rw [maxVersion, h]
  cases k with
  | zero => rfl
  | succ k =>
    have hmax : (upTo (k + 1)).reverse.max? = some ((k : Int) + 1) := by
      rw [List.max?_eq_some_iff]
      refine ⟨by simp [mem_upTo], fun i hi => ?_⟩
      have := (mem_upTo.1 (List.mem_reverse.1 hi)).2
      omega
    rw [hmax]
    simp

theorem numbersOn_append (d : Db) (n : Uuid) (j : History)
    (c : Txn.Commit Db CommitCall CommitRes) :
    numbersOn d n (j ++ [c]) =
      numbersOn d n j ++ if c.call.node d = some n then [c.res.number] else [] := by
  by_cases h : c.call.node d = some n
  · simp [numbersOn, h]
  · simp [numbersOn, h]

theorem commitsOf_append (sid : Uuid) (j : History) (c : Txn.Commit Db CommitCall CommitRes) :
    commitsOf sid (j ++ [c]) =
      commitsOf sid j ++ if c.call.isFileOf sid then [c] else [] := by
  by_cases h : c.call.isFileOf sid = true
  · simp [commitsOf, h]
  · simp [commitsOf, h]

/-! ## The invariant and what one commit does -/

/-- The status of a session. -/
def sessionStatus (d : Db) (sid : Uuid) : Option SessionStatus :=
  (d.sessions.lookup sid).map SessionRow.status

/-- The node of a session. -/
def sessionNode (d : Db) (sid : Uuid) : Option Uuid :=
  (d.sessions.lookup sid).bind SessionRow.nodeId

/-- What holds of every committed world that starts from `d₀`. -/
structure Sequenced (d₀ : Db) (w : World Db CommitCall CommitRes) : Prop where
  nodes : w.db.nodes = d₀.nodes
  sessionNode : ∀ sid, sessionNode w.db sid = sessionNode d₀ sid
  numbers : ∀ n, ∃ k, numbersOn d₀ n w.journal = upTo k ∧
    w.db.versionNumbers n = (upTo k).reverse
  once : ∀ sid, commitsOf sid w.journal = [] ∨
    (commitsOf sid w.journal).length = 1 ∧ sessionStatus w.db sid = some .completed

/-- What the commit of a call that returns `number` makes of the world: the next number for its
node, and a session that was open and is completed. -/
structure Outcome (d₀ : Db) (c : CommitCall) (number : Int) (w : World Db CommitCall CommitRes)
    (u : Db) : Prop where
  nodes : u.nodes = d₀.nodes
  sessionNode : ∀ sid, sessionNode u sid = sessionNode w.db sid
  numbered : ∃ n, c.node d₀ = some n ∧ number = w.db.maxVersion n + 1 ∧
    ∀ n', u.versionNumbers n' =
      if n' = n then number :: w.db.versionNumbers n' else w.db.versionNumbers n'
  opened : ∀ sid, c.isFileOf sid = true → sessionStatus w.db sid ≠ some .completed ∧
    sessionStatus u sid = some .completed
  others : ∀ sid, c.isFileOf sid = false → sessionStatus u sid = sessionStatus w.db sid

variable {w : World Db CommitCall CommitRes}

/-- The step of the induction over commits. -/
theorem Sequenced.commit {d₀ : Db} (hw : Sequenced d₀ w) {i : Nat} {c : CommitCall} {r : CommitRes}
    {eff : Db → Db} (ho : Outcome d₀ c r.number w (eff w.db)) :
    Sequenced d₀ (w.commit i c r eff) where
  nodes := ho.nodes
  sessionNode := fun sid => (ho.sessionNode sid).trans (hw.sessionNode sid)
  numbers := by
    intro n
    obtain ⟨m, hm, hnum, hrows⟩ := ho.numbered
    obtain ⟨k, hj, hd⟩ := hw.numbers n
    show ∃ k, numbersOn d₀ n (w.journal ++ [⟨i, c, r, eff⟩]) = upTo k ∧
      (eff w.db).versionNumbers n = (upTo k).reverse
    rw [numbersOn_append, hrows n, hm]
    by_cases hn : n = m
    · subst hn
      rw [maxVersion_eq hd] at hnum
      refine ⟨k + 1, ?_, ?_⟩
      · rw [if_pos rfl, hj, hnum, upTo_succ]
      · rw [if_pos rfl, hd, hnum, upTo_succ, List.reverse_append, List.reverse_singleton,
          List.singleton_append]
    · refine ⟨k, ?_, ?_⟩
      · rw [if_neg (by simpa using Ne.symm hn), hj, List.append_nil]
      · rw [if_neg hn, hd]
  once := by
    intro sid
    show commitsOf sid (w.journal ++ [⟨i, c, r, eff⟩]) = [] ∨
      (commitsOf sid (w.journal ++ [⟨i, c, r, eff⟩])).length = 1 ∧
        sessionStatus (eff w.db) sid = some .completed
    rw [commitsOf_append]
    cases hc : c.isFileOf sid with
    | true =>
      obtain ⟨hopen, hdone⟩ := ho.opened sid hc
      rcases hw.once sid with hnone | ⟨-, hcompleted⟩
      · right
        simp [hnone, hdone]
      · exact absurd hcompleted hopen
    | false =>
      rw [ho.others sid hc]
      simpa [hc] using hw.once sid

/-! ## What the locks protect -/

/-- The lock of a session protects its row, that of a version its row, and that of a node the
numbers of its versions, if there is such a node. -/
def Protects (d₀ : Db) : DbLock → Db → Db → Prop
  | .row (.session s) m, d, d' => m.writes = true → d.sessions.lookup s = d'.sessions.lookup s
  | .row (.version v) m, d, d' => m.writes = true → d.versions.lookup v = d'.versions.lookup v
  | .row (.node n) m, d, d' =>
    m.writes = true → hasNode n d₀ = true → d.versionNumbers n = d'.versionNumbers n
  | _, _, _ => True

def locks (d₀ : Db) : Footprint Db DbLock where
  Agree := Protects d₀
  Mark := fun _ => False
  refl := by
    intro l d
    unfold Protects
    split <;> simp
  trans := by
    intro l a b c hab hbc
    unfold Protects at *
    split <;> simp_all

variable {d₀ : Db}

variable {v : Uuid}

/-- A new version is covered by the locks on its row and on its node. -/
theorem covered_insertVersion {ls : List DbLock} {r : VersionRow}
    (hv : .row (.version v) .update ∈ ls)
    (hn : hasNode r.nodeId d₀ = true → .row (.node r.nodeId) .update ∈ ls) :
    (locks d₀).Covered ls (insertVersion v r) where
  loc := by
    intro l d d' hls hl
    have hsame : hasVersion v d = hasVersion v d' := by
      rw [hasVersion, hasVersion, hls _ hv rfl]
    simp only [locks, Protects] at hl ⊢
    split
    · exact hl
    · intro hm
      rw [lookup_insertVersion, lookup_insertVersion, hl hm]
    · intro hm hex
      rw [versionNumbers_insertVersion, versionNumbers_insertVersion, hsame, hl hm hex]
    · trivial
  frame := by
    intro l d hl
    simp only [locks, Protects]
    split
    · intro _
      rfl
    · next v' m' =>
      intro hm'
      have hne := DbLock.ne_of_compatible hl rfl hm' hv
      rw [lookup_insertVersion, if_neg (by simpa using hne)]
    · next n m' =>
      intro hm' hex
      rw [versionNumbers_insertVersion, if_neg]
      rintro ⟨-, rfl⟩
      exact DbLock.ne_of_compatible hl rfl hm' (hn hex) rfl
    · trivial

/-- Completing a session is covered by a writer's lock on it. -/
theorem covered_completeSession {s : Uuid} {n : Int} :
    (locks d₀).Covered [.row (.session s) .noKeyUpdate] (completeSession s n) where
  loc := by
    intro l d d' _ hl
    simp only [locks, Protects] at hl ⊢
    split
    · intro hm
      simp only [completeSession, Table.lookup_modify, hl hm]
    · exact hl
    · exact hl
    · trivial
  frame := by
    intro l d hl
    simp only [locks, Protects]
    split
    · next s' m' =>
      intro hm'
      have hne := DbLock.ne_of_compatible hl rfl hm' (List.mem_singleton_self _)
      simp only [completeSession, Table.lookup_modify]
      rw [if_neg (by simpa using hne)]
    · intro _
      rfl
    · intro _ _
      rfl
    · trivial

/-- A change to other tables needs no lock. -/
theorem covered_blocks (ls : List DbLock) {f : Db → Db} (hs : ∀ d, (f d).sessions = d.sessions)
    (hv : ∀ d, (f d).versions = d.versions) : (locks d₀).Covered ls f where
  loc := by
    intro l d d' _ hl
    simp only [locks, Protects] at hl ⊢
    split <;> simp_all [versionNumbers]
  frame := by
    intro l d _
    simp only [locks, Protects]
    split <;> simp_all [versionNumbers]

/-! ## Statements about other tables -/

/-- `p` takes points where `A` holds to points where `B` holds, whatever other commits do
meanwhile. -/
abbrev Ensures {β : Type} (d₀ : Db) (A : List DbLock → World Db CommitCall CommitRes → Db → Prop)
    (p : Stmt β) (B : β → List DbLock → World Db CommitCall CommitRes → Db → Prop) : Prop :=
  (locks d₀).Triple (Sequenced d₀) (fun _ => False) A p B

/-- An assertion that more locks and changes to other tables than nodes, sessions and versions
leave alone. -/
def Elsewhere (A : List DbLock → World Db CommitCall CommitRes → Db → Prop) : Prop :=
  ∀ ⦃held held' w u u'⦄, A held w u → held ⊆ held' → u'.nodes = u.nodes →
    u'.sessions = u.sessions → u'.versions = u.versions → A held' w u'

/-- A change to other tables than nodes, sessions and versions. -/
def OnBlocks (f : Db → Db) : Prop :=
  ∀ d, (f d).nodes = d.nodes ∧ (f d).sessions = d.sessions ∧ (f d).versions = d.versions

/-- A program that writes other tables leaves the assertion true. -/
theorem elsewhere_uses (hA : Elsewhere A) (hp : p.Uses OnBlocks) : Ensures d₀ A p fun _ => A := by
  refine Triple.uses hp (fun f hf ls => ?_) (fun f hf {_ _ _ u} hs hu => ?_) fun _ => id
  · exact covered_blocks ls (fun d => (hf d).2.1) fun d => (hf d).2.2
  · exact hA hu hs (hf u).1 (hf u).2.1 (hf u).2.2

theorem upsertBlocks_onBlocks {blocks : List BlockMeta} :
    (upsertBlocks t now blocks).Uses OnBlocks :=
  upsertBlocks_uses (fun _ => ⟨rfl, rfl, rfl⟩) fun _ _ _ => ⟨rfl, rfl, rfl⟩

theorem insertManifestBlocks_onBlocks {blocks : List BlockMeta} :
    (insertManifestBlocks v blocks).Uses OnBlocks :=
  insertManifestBlocks_uses (fun _ => ⟨rfl, rfl, rfl⟩) (fun _ _ _ => ⟨rfl, rfl, rfl⟩)
    fun _ _ _ => ⟨rfl, rfl, rfl⟩

/-! ## The number of a version -/

/-- A view in which nodes, sessions and versions are as committed. -/
structure Untouched (d₀ : Db) (w : World Db CommitCall CommitRes) (u : Db) : Prop where
  nodes : u.nodes = d₀.nodes
  sessions : u.sessions = w.db.sessions
  versions : u.versions = w.db.versions

/-- The transaction holds the node, and `number` is the next one for it. -/
def Numbered (d₀ : Db) (n : Uuid) (number : Int) (held : List DbLock)
    (w : World Db CommitCall CommitRes) : Prop :=
  hasNode n d₀ = true →
    .row (.node n) .update ∈ held ∧ number = w.db.maxVersion n + 1

/-- A view with one more version. -/
structure Added (d₀ : Db) (n : Uuid) (number : Int) (w : World Db CommitCall CommitRes)
    (u : Db) : Prop where
  nodes : u.nodes = d₀.nodes
  sessions : u.sessions = w.db.sessions
  rows : ∀ n', u.versionNumbers n' =
    if n' = n then number :: w.db.versionNumbers n' else w.db.versionNumbers n'

/-- The lock on the node keeps its numbers. -/
theorem Numbered.stable (hs : held ⊆ held') (_ : Sequenced d₀ w')
    (hagree : ∀ l ∈ held, (locks d₀).Agree l w.db w'.db) (h : Numbered d₀ n number held w) :
    Numbered d₀ n number held' w' := by
  intro hex
  obtain ⟨hmem, hnum⟩ := h hex
  have hsame : w.db.versionNumbers n = w'.db.versionNumbers n := hagree _ hmem rfl hex
  exact ⟨hs hmem, by rw [hnum, maxVersion, maxVersion, hsame]⟩

theorem hasNode_of_nodes (h : u.nodes = d₀.nodes) (n : Uuid) : hasNode n u = hasNode n d₀ := by
  rw [hasNode, hasNode, h]

theorem forUpdate_untouched :
    Ensures d₀ (fun _ w u => Untouched d₀ w u) (forUpdate k present)
      fun _ _ w u => Untouched d₀ w u :=
  forUpdate_triple fun _ _ _ _ _ _ _ _ _ hu _ _ _ _ => hu

/-- `next_version_number` returns the next number of the node, and holds on to it. -/
theorem nextVersionNumber_ensures :
    Ensures d₀ (fun _ w u => Untouched d₀ w u) (nextVersionNumber n)
      fun number held w u => Untouched d₀ w u ∧ Numbered d₀ n number held w := by
  refine Triple.bind (M := fun _ held w u => Untouched d₀ w u ∧
    (hasNode n d₀ = true → .row (.node n) .update ∈ held)) (forUpdate_triple ?_) fun _ => ?_
  · intro _ held' w v w' u _ hv _ hu _ hmem _ _
    refine ⟨hu, fun hex => hmem ?_⟩
    rw [hasNode_of_nodes hv.nodes, hex]
  refine Triple.bind (M := fun v held w u => Untouched d₀ w u ∧
    Numbered d₀ n (v.maxVersion n + 1) held w) (Triple.read ?_) fun v => ?_
  · rintro held w v w' u - hv - ⟨hu, hmem⟩ - hagree
    refine ⟨hu, fun hex => ⟨hmem hex, ?_⟩⟩
    have hsame : v.versionNumbers n = u.versionNumbers n := hagree _ (hmem hex) rfl hex
    rw [maxVersion, hsame, versionNumbers, hu.versions]
    rfl
  · exact Triple.checked id fun _ => Triple.ret fun _ _ _ _ hu => hu

/-- The new row of `file_versions`, once its foreign key has been checked. -/
theorem insertFileVersion_ensures :
    Ensures d₀ (fun held w u => Untouched d₀ w u ∧ Numbered d₀ n number held w)
      (insertFileVersion v ⟨n, number, size, sha, createdBy⟩) fun _ held w u =>
        (Added d₀ n number w u ∧ hasNode n d₀ = true) ∧ Numbered d₀ n number held w := by
  refine Triple.checked id fun _ => Triple.checked id fun _ => ?_
  refine Triple.bind (M := fun s held w u => (hasVersion v s = false →
      Added d₀ n number w u) ∧ u.nodes = d₀.nodes ∧ Numbered d₀ n number held w)
    (Triple.stmt (fun _ _ hl => .inr hl) ?_ ?_) fun s => ?_
  · rintro held w s - ⟨-, hnum⟩
    refine covered_insertVersion (by simp) fun hex => ?_
    exact List.mem_append_right _ (hnum hex).1
  · rintro held w s w' u - - hw' ⟨hu, hnum⟩ - hview
    refine ⟨fun hnone => ⟨hu.nodes, hu.sessions, fun n' => ?_⟩, hu.nodes,
      hnum.stable (List.subset_append_right _ _) hw' fun l _ => (locks d₀).refl l _⟩
    have hsame : hasVersion v s = hasVersion v u := by
      rw [hasVersion, hasVersion, hview (.row (.version v) .update) (by simp) rfl]
    have hrows : u.versionNumbers n' = w'.db.versionNumbers n' := by
      rw [versionNumbers, hu.versions]
      rfl
    rw [versionNumbers_insertVersion, ← hsame, hnone, hrows]
    simp [eq_comm]
  · refine Triple.checked id fun hnone => Triple.checked id fun _ => references_triple id ?_
    rintro held held' w s' w' u - ⟨-, hnodes, -⟩ hw' ⟨hadded, -, hnum⟩ hs hex
    rw [hasNode_of_nodes hnodes] at hex
    exact ⟨⟨hadded (by simpa using hnone), hex⟩,
      hnum.stable hs hw' fun l _ => (locks d₀).refl l _⟩

/-! ## The two calls -/

/-- The transaction holds session `sid`, and its committed row is `session`. -/
def OnSession {Call Res : Type} (sid : Uuid) (session : SessionRow) (held : List DbLock)
    (w : World Db Call Res) : Prop :=
  .row (.session sid) .update ∈ held ∧ w.db.sessions.lookup sid = some session

variable {a : CommitFile} {session : SessionRow}

/-- The lock on the session keeps its row, where it protects it. -/
theorem OnSession.stable {Call Res : Type} {Inv : World Db Call Res → Prop}
    {w w' : World Db Call Res} {F : Footprint Db DbLock}
    (hF : ∀ d d', F.Agree (.row (.session sid) .update) d d' →
      d.sessions.lookup sid = d'.sessions.lookup sid)
    (hs : held ⊆ held') (_ : Inv w') (hagree : ∀ l ∈ held, F.Agree l w.db w'.db)
    (h : OnSession sid session held w) : OnSession sid session held' w' :=
  ⟨hs h.1, (hF _ _ (hagree _ h.1)).symm.trans h.2⟩

/-- Locking the session tells its row, where the transaction has not written sessions. -/
theorem lockSession_triple {Call Res : Type} {Inv : World Db Call Res → Prop}
    {F : Footprint Db DbLock} {A : World Db Call Res → Db → Prop}
    (hF : ∀ d d', F.Agree (.row (.session sid) .update) d d' →
      d.sessions.lookup sid = d'.sessions.lookup sid)
    (hA : ∀ {w u}, A w u → u.sessions = w.db.sessions) :
    F.Triple Inv Excluded (fun _ w u => A w u) (forUpdate (.session sid) (hasSession sid))
      fun v held w u => A w u ∧ ∀ session, v.sessions.lookup sid = some session →
        OnSession sid session held w := by
  refine forUpdate_triple fun _ held' w v w' u _ _ _ hu _ hmem _ hview => ?_
  refine ⟨hu, fun session hrow => ?_⟩
  have hheld := hmem (by rw [hasSession, hrow]; rfl)
  refine ⟨hheld, ?_⟩
  rw [← hA hu, ← hF _ _ (hview _ hheld), hrow]

/-- `CommitFileVersion` adds the next version of its node. -/
theorem commitFileVersion_ensures {a : CommitFileVersion} :
    Ensures d₀ (fun _ w u => Untouched d₀ w u) (commitFileVersion a)
      fun number _ w u => Outcome d₀ (.version a) number w u := by
  refine Triple.bind nextVersionNumber_ensures fun number => ?_
  refine Triple.bind insertFileVersion_ensures fun _ => Triple.ret ?_
  rintro held w u - ⟨⟨hadded, hex⟩, hnum⟩
  refine ⟨hadded.nodes, ?_, ⟨a.nodeId, rfl, (hnum hex).2, hadded.rows⟩, ?_, ?_⟩
  · intro sid
    rw [sessionNode, hadded.sessions]
    rfl
  · intro sid hc
    cases hc
  · intro sid _
    rw [sessionStatus, hadded.sessions]
    rfl

/-- The validation of `CommitFile` lets only sessions through that are not completed. -/
theorem validateSession_ensures :
    Ensures d₀ A (validateSession a session)
      fun _ held w u => session.status ≠ .completed ∧ A held w u := by
  refine Triple.checked id fun hstatus => ?_
  refine Triple.checked id fun _ => Triple.checked id fun _ => ?_
  exact (Triple.guard id).post fun _ _ _ _ _ hu => ⟨by simpa using hstatus, hu.2⟩

/-- Step 8 of `CommitFile` completes the session it holds, and nothing else. -/
theorem markCompleted_ensures :
    Ensures d₀ (fun held w u => Added d₀ n number w u ∧ OnSession sid session held w)
      (markCompleted sid count) fun _ _ w u =>
        u.nodes = d₀.nodes ∧ (∀ n', u.versionNumbers n' =
          if n' = n then number :: w.db.versionNumbers n' else w.db.versionNumbers n') ∧
        (∀ sid', u.sessions.lookup sid' = if sid' = sid then
          some { session with status := .completed, chunksReceived := count }
          else w.db.sessions.lookup sid') ∧ w.db.sessions.lookup sid = some session := by
  have hthere : ∀ {held w u}, Added d₀ n number w u ∧ OnSession sid session held w →
      hasSession sid u = true := by
    rintro held w u ⟨hu, hses⟩
    rw [hasSession, hu.sessions, hses.2]
    rfl
  refine Triple.bind (M := fun s held w u => hasSession sid s = true ∧
    Added d₀ n number w u ∧ OnSession sid session held w) (Triple.read ?_) fun s => ?_
  · intro held w v w' u _ hv _ hu _ _
    exact ⟨hthere hv, hu⟩
  refine Triple.assume (fun _ _ _ _ hu => hu.1) fun hs => ?_
  rw [if_pos hs]
  refine Triple.bind (rewriteRow_triple covered_completeSession (fun _ hv => hv) ?_)
    fun _ => Triple.ret fun _ _ _ _ hu => hu
  rintro held held' w v w' u - ⟨-, hv⟩ - ⟨-, hu, hses⟩ - - - -
  rw [if_pos (hthere hv)]
  refine ⟨hu.nodes, hu.rows, fun sid' => ?_, hses.2⟩
  rw [completeSession, Table.lookup_modify, hu.sessions]
  split
  · next h =>
    rw [h, hses.2]
    rfl
  · rfl

/-- What `CommitFile` has made of its view at the end is the outcome of the call. -/
theorem outcome_file (hw : Sequenced d₀ w) (hnodes : u.nodes = d₀.nodes)
    (hnode : session.nodeId = some n) (hopen : session.status ≠ .completed)
    (hnum : number = w.db.maxVersion n + 1)
    (hrows : ∀ n', u.versionNumbers n' =
      if n' = n then number :: w.db.versionNumbers n' else w.db.versionNumbers n')
    (hsessions : ∀ sid, u.sessions.lookup sid = if sid = a.sessionId then
      some { session with status := .completed, chunksReceived := count }
      else w.db.sessions.lookup sid) (hrow : w.db.sessions.lookup a.sessionId = some session) :
    Outcome d₀ (.file a) number w u := by
  refine ⟨hnodes, fun sid => ?_, ⟨n, ?_, hnum, hrows⟩, fun sid hc => ?_, fun sid hc => ?_⟩
  · rw [sessionNode, sessionNode, hsessions sid]
    split
    · next h => rw [h, hrow]; rfl
    · rfl
  · show sessionNode d₀ a.sessionId = some n
    rw [← hw.sessionNode, sessionNode, hrow, Option.bind_some, hnode]
  · obtain rfl : a.sessionId = sid := by simpa [CommitCall.isFileOf] using hc
    rw [sessionStatus, sessionStatus, hsessions, if_pos rfl, hrow]
    exact ⟨by simpa using hopen, rfl⟩
  · have hne : sid ≠ a.sessionId := by
      rintro rfl
      simp [CommitCall.isFileOf] at hc
    rw [sessionStatus, hsessions, if_neg hne]
    rfl

/-- `CommitFile` adds the next version of its session's node and completes the session. -/
theorem commitFile_ensures :
    Ensures d₀ (fun _ w u => Untouched d₀ w u) (commitFile a)
      fun r _ w u => Outcome d₀ (.file a) r.2 w u := by
  refine Triple.bind (lockSession_triple (fun _ _ h => h rfl) fun hu => hu.sessions) fun v => ?_
  split
  · exact Triple.raise id
  · next session hrow =>
    refine Triple.bind validateSession_ensures fun _ => ?_
    split
    · exact Triple.raise id
    · next n hnode =>
      refine Triple.assume (fun _ _ _ _ hu => hu.1) fun hopen => ?_
      refine Triple.pre (A := fun held w u => Untouched d₀ w u ∧
        OnSession a.sessionId session held w) ?_ fun _ _ _ _ hu => ⟨hu.2.1, hu.2.2 session hrow⟩
      refine Triple.bind (forUpdate_untouched.frame
        (OnSession.stable fun _ _ h => h rfl)) fun _ => ?_
      refine Triple.bind (nextVersionNumber_ensures.frame
        (OnSession.stable fun _ _ h => h rfl)) fun number => ?_
      refine Triple.bind (insertFileVersion_ensures.frame
        (OnSession.stable fun _ _ h => h rfl)) fun _ => ?_
      refine Triple.assume (fun _ _ _ _ hu => hu.1.1.2) fun hex => ?_
      -- what is left concerns other tables, up to the session
      have hother : Elsewhere fun held w u => Added d₀ n number w u ∧
          OnSession a.sessionId session held w ∧ Numbered d₀ n number held w := by
        rintro held held' w u u' ⟨hu, hses, hnum⟩ hs hn hss hv
        refine ⟨⟨hn.trans hu.nodes, hss.trans hu.sessions, fun n' => ?_⟩, ⟨hs hses.1, hses.2⟩,
          fun hex => ⟨hs (hnum hex).1, (hnum hex).2⟩⟩
        rw [versionNumbers, hv]
        exact hu.rows n'
      refine Triple.pre (A := fun held w u => Added d₀ n number w u ∧
          OnSession a.sessionId session held w ∧ Numbered d₀ n number held w) ?_
        fun _ _ _ _ hu => ⟨hu.1.1.1, hu.2, hu.1.2⟩
      refine Triple.bind (elsewhere_uses hother upsertBlocks_onBlocks) fun _ => ?_
      refine Triple.bind (elsewhere_uses hother insertManifestBlocks_onBlocks) fun _ => ?_
      refine Triple.bind ((markCompleted_ensures.frame Numbered.stable).pre
        fun _ _ _ _ hu => ⟨⟨hu.1, hu.2.1⟩, hu.2.2⟩) fun _ => Triple.ret ?_
      rintro held w u hw ⟨⟨hnodes, hrows, hsessions, hrow'⟩, hnum⟩
      exact outcome_file hw hnodes hnode hopen (hnum hex).2 hrows hsessions hrow'

theorem commitCall_ensures (c : CommitCall) :
    Ensures d₀ (fun _ w u => Untouched d₀ w u) c.body
      fun r _ w u => Outcome d₀ c r.number w u := by
  cases c with
  | file a => exact Triple.bind commitFile_ensures fun _ => Triple.ret fun _ _ _ _ hu => hu
  | version a =>
    exact Triple.bind commitFileVersion_ensures fun _ => Triple.ret fun _ _ _ _ hu => hu

/-! ## Whole runs -/

/-- However commits run together, the world stays sequenced. -/
theorem commits_good {tenants : Table Uuid TenantRow} {nodes : Table Uuid NodeRow}
    {sessions : Table Uuid SessionRow}
    (hr : (Sys.init (Db.seed tenants nodes sessions)).run CommitCall.body acts = some s) :
    Sequenced (Db.seed tenants nodes sessions) s.world :=
  (Protocol.sound (P := (locks (Db.seed tenants nodes sessions)).protocol
      (Sequenced (Db.seed tenants nodes sessions)) fun _ => False) (fun _ hm => hm)
    (fun c _ hw => Triple.commits (commitCall_ensures c) (fun _ hw => ⟨hw.nodes, rfl, rfl⟩)
      (fun _ _ _ _ _ hw ho => hw.commit ho) hw)
    ⟨rfl, fun _ => rfl, fun _ => ⟨0, rfl, rfl⟩, fun _ => .inl rfl⟩ hr).inv

/-- **Concurrent commits are sequenced.** After every run, each session has at most one `CommitFile`
among the commits; the commits for a node have returned 1, 2, …, n in this order, and these are the
numbers of its versions; and the database is what the commits made of the initial one, with no
transaction among them that failed, was aborted or is still running. -/
theorem commits_sequenced {tenants : Table Uuid TenantRow} {nodes : Table Uuid NodeRow}
    {sessions : Table Uuid SessionRow} {acts : List (Action CommitCall)}
    {s : Sys Db DbLock Err CommitCall CommitRes}
    (hr : (Sys.init (Db.seed tenants nodes sessions)).run CommitCall.body acts = some s) :
    (∀ sid, (commitsOf sid s.world.journal).length ≤ 1) ∧
    (∀ n, ∃ k, numbersOn (Db.seed tenants nodes sessions) n s.world.journal = upTo k ∧
      s.world.db.versionNumbers n = (upTo k).reverse) ∧
    s.world.db = s.world.journal.foldl (fun d c => c.eff d) (Db.seed tenants nodes sessions) ∧
    ∀ (i : Nat) (t : Tx Db DbLock Err CommitCall CommitRes), s.txns[i]? = some t →
      (∀ r, t.phase ≠ .committed r) → ∀ c ∈ s.world.journal, c.id ≠ i := by
  have hseq := commits_good hr
  have hjournal := Sys.journaled hr
  refine ⟨fun sid => ?_, hseq.numbers, hjournal.db_eq, ?_⟩
  · rcases hseq.once sid with hnone | ⟨hone, -⟩
    · simp [hnone]
    · exact hone.le
  · rintro i t hi ht c hc rfl
    obtain ⟨t', ht', -, hphase⟩ := hjournal.committed c hc
    obtain rfl := Option.some.inj (hi.symm.trans ht')
    exact ht _ hphase

/-- One file node with an open upload session for one chunk. -/
def oneSessionSeed : Db :=
  Db.seed (AList.singleton 1 ⟨100, 0⟩)
    (AList.singleton 2 ⟨1, none, ['r'], .directory, [Uuid.nodeLabel 2], 0, false⟩)
    (AList.singleton 3 ⟨1, some 2, .initiated, 4, 1, 0, 50⟩)

/-- Two commits of the session and a direct one on its node, all started before any of them ends:
the second commit of the session fails, the direct one waits for the first and gets number 2. -/
def contendedRun : List (Action CommitCall) := List.flatten [
  [.start (.file ⟨1, 3, 9, [⟨5, 0, 0, 4⟩], 10, 10, 10⟩),
    .start (.file ⟨1, 3, 9, [⟨5, 0, 0, 4⟩], 11, 10, 10⟩), .start (.version ⟨2, 4, 9, 1, 12⟩)],
  List.replicate 15 (.exec 0), [.commit 0], List.replicate 4 (.exec 2), [.commit 2],
  List.replicate 2 (.exec 1)]

theorem commits_sequenced_contended :
    ∃ s, (Sys.init oneSessionSeed).run CommitCall.body contendedRun = some s ∧
      numbersOn oneSessionSeed 2 s.world.journal = [1, 2] ∧
      (commitsOf 3 s.world.journal).length ≤ 1 := by
  have hrun : ((Sys.init oneSessionSeed).run CommitCall.body contendedRun).map
      (fun s => numbersOn oneSessionSeed 2 s.world.journal) = some [1, 2] := by decide +kernel
  obtain ⟨s, hs, hnumbers⟩ := Option.map_eq_some_iff.1 hrun
  exact ⟨s, hs, hnumbers, (commits_sequenced hs).1 3⟩

end Aegis.Ingress
