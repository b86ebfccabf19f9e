import Aegis.Ingress.Serving
import Aegis.Ingress.Versions

/-!
# Versions and the sessions they complete

Every version that `CommitFile` adds is for the node and the size of the session that it completes,
and a session is completed once. So over any number of transactions together the committed versions
correspond one to one to the completed sessions, whatever is summed over them, and the sessions to
the `CreateUploadSession` calls that have committed (`Accounted`). The locks of the session, of the
version and of the node that a transaction writes are what this rests on: what it has read of these
rows stays so until it ends.
-/

namespace Aegis.Db

/-- The tenant of a node. -/
def nodeTenant (d : Db) (n : Uuid) : Option Uuid := (d.nodes.lookup n).map NodeRow.tenantId

/-- The sizes declared by the sessions of a tenant. -/
def declaredBytes (d : Db) (t : Uuid) : Int :=
  d.sessions.total fun r => if r.tenantId = t then r.totalSize else 0

end Aegis.Db

namespace Aegis.Ingress.Handlers

open Db Stmt Txn Txn.Prog Txn.Footprint

/-! ## The invariant and what a call does -/

/-- What `f` makes of the node and the size of a version, and of a session if it is completed. -/
def versionWeight (f : Option Uuid → Int → Int) (r : VersionRow) : Int :=
  f (some r.nodeId) r.totalSizeBytes

def completedWeight (f : Option Uuid → Int → Int) (r : SessionRow) : Int :=
  if r.status = .completed then f r.nodeId r.totalSize else 0

/-- The size that a call declares for a tenant. -/
def Call.declares (t : Uuid) : Call → Int
  | .createUploadSession a => if a.tenantId = t then a.totalSize else 0
  | _ => 0

/-- The row is that of a session which the call opened. -/
def OpenedBy (r : SessionRow) (c : Call) : Prop :=
  ∃ a, c = .createUploadSession a ∧ r.tenantId = a.tenantId ∧ r.nodeId = some a.nodeId ∧
    r.totalSize = a.totalSize

/-- The invariant of the committed world: versions are completed sessions, sessions are what the
committed calls opened, and the nodes that were created are there. -/
structure Accounted (w : World Db Call Res) : Prop where
  matched : ∀ f, w.db.versions.total (versionWeight f) = w.db.sessions.total (completedWeight f)
  declared : ∀ t, w.db.declaredBytes t = (w.journal.map fun c => c.call.declares t).sum
  opened : ∀ sid r, w.db.sessions.lookup sid = some r → ∃ c ∈ w.journal, OpenedBy r c.call
  placed : ∀ c ∈ w.journal, ∀ a, c.call = .createFileNode a →
    w.db.nodeTenant a.nodeId = some a.tenantId

/-- Nodes, sessions and versions are as committed. -/
structure Clean (w : World Db Call Res) (u : Db) : Prop where
  nodes : u.nodes = w.db.nodes
  sessions : u.sessions = w.db.sessions
  versions : u.versions = w.db.versions

/-- A version has been added. -/
structure Versioned (v : Uuid) (r : VersionRow) (w : World Db Call Res) (u : Db) : Prop where
  nodes : u.nodes = w.db.nodes
  sessions : u.sessions = w.db.sessions
  versions : u.versions = w.db.versions.insertNew v r

/-- A session has been added. -/
structure Sessioned (sid : Uuid) (r : SessionRow) (w : World Db Call Res) (u : Db) : Prop where
  nodes : u.nodes = w.db.nodes
  sessions : u.sessions = w.db.sessions.insertNew sid r
  versions : u.versions = w.db.versions

/-- A node has been added. -/
structure Rooted (n : Uuid) (r : NodeRow) (w : World Db Call Res) (u : Db) : Prop where
  nodes : u.nodes = w.db.nodes.insertNew n r
  sessions : u.sessions = w.db.sessions
  versions : u.versions = w.db.versions

/-- What a call has made of nodes, sessions and versions when it commits. -/
inductive Makes (w : World Db Call Res) (u : Db) : Call → Prop
  | createFileNode {a : Namespace.NewNode} {r : NodeRow} : Rooted a.nodeId r w u →
    r.tenantId = a.tenantId → w.db.nodes.lookup a.nodeId = none → Makes w u (.createFileNode a)
  | createUploadSession {a : NewSession} : u.nodes = w.db.nodes → u.versions = w.db.versions →
    w.db.sessions.lookup a.sessionId = none →
    u.sessions = w.db.sessions.insertNew a.sessionId a.row → Makes w u (.createUploadSession a)
  | commitFile {a : CommitFile} {session : SessionRow} {r : VersionRow} {k : Int} :
    u.nodes = w.db.nodes → w.db.versions.lookup a.versionId = none →
    u.versions = w.db.versions.insertNew a.versionId r →
    w.db.sessions.lookup a.sessionId = some session → session.status ≠ .completed →
    session.nodeId = some r.nodeId → r.totalSizeBytes = session.totalSize →
    u.sessions = (completeSession a.sessionId k w.db).sessions → Makes w u (.commitFile a)
  | markBlockVerified {h : Hash} : Clean w u → Makes w u (.markBlockVerified h)

variable {u : Db} {c : Call} {n sid : Uuid} {w : World Db Call Res}

/-- Nodes are never lost. -/
theorem Makes.nodes (h : Makes w u c) (hn : w.db.nodeTenant n = some t) :
    u.nodeTenant n = some t := by
  cases h with
  | createFileNode hr =>
    obtain ⟨row, hrow, rfl⟩ := Option.map_eq_some_iff.1 hn
    rw [nodeTenant, hr.nodes, Table.lookup_insertNew, hrow]
    split <;> rfl
  | createUploadSession hnodes | commitFile hnodes => rwa [nodeTenant, hnodes]
  | markBlockVerified hclean => rwa [nodeTenant, hclean.nodes]

/-- Every call keeps versions and completed sessions in step. -/
theorem Makes.matched (h : Makes w u c) (hw : Accounted w) (f : Option Uuid → Int → Int) :
    u.versions.total (versionWeight f) = u.sessions.total (completedWeight f) := by
  cases h with
  | createFileNode hr => rw [hr.versions, hr.sessions, hw.matched f]
  | createUploadSession _ hversions _ hsessions =>
    -- the new session is not completed
    rw [hversions, hsessions, Table.total_insertNew, hw.matched f]
    simp [completedWeight, NewSession.row]
  | @commitFile a session r k _ hfresh hversions hrow hopen hnode hsize hsessions =>
    rw [hversions, Table.total_insertNew, if_pos hfresh, hsessions, completeSession,
      Table.total_modify hrow, hw.matched f]
    simp [completedWeight, versionWeight, hopen, hnode, hsize]
  | markBlockVerified hclean => rw [hclean.versions, hclean.sessions, hw.matched f]

/-- Every call adds to the declared sizes what it declares. -/
theorem Makes.declared (h : Makes w u c) (t : Uuid) :
    u.declaredBytes t = w.db.declaredBytes t + c.declares t := by
  unfold declaredBytes
  cases h with
  | createFileNode hr =>
    rw [hr.sessions]
    exact (add_zero _).symm
  | createUploadSession _ _ hnone hsessions =>
    rw [hsessions, Table.total_insertNew, if_pos hnone]
    rfl
  | commitFile _ _ _ hrow _ _ _ hsessions =>
    rw [hsessions, completeSession, Table.total_modify hrow, sub_add_cancel]
    exact (add_zero _).symm
  | markBlockVerified hclean =>
    rw [hclean.sessions]
    exact (add_zero _).symm

/-- A session of the view was there, up to its status, or the call has opened it. -/
theorem Makes.opened (h : Makes w u c) (hr : u.sessions.lookup sid = some r) :
    OpenedBy r c ∨
      ∃ r₀, w.db.sessions.lookup sid = some r₀ ∧ r.tenantId = r₀.tenantId ∧
        r.nodeId = r₀.nodeId ∧ r.totalSize = r₀.totalSize := by
  cases h with
  | createFileNode hroot => exact .inr ⟨r, by rw [← hroot.sessions, hr], rfl, rfl, rfl⟩
  | @createUploadSession a _ _ hnone hsessions =>
    rw [hsessions, Table.lookup_insertNew] at hr
    split at hr
    · next hsid =>
      rw [hsid, hnone, Option.getD_none] at hr
      cases hr
      exact .inl ⟨a, rfl, rfl, rfl, rfl⟩
    · exact .inr ⟨r, hr, rfl, rfl, rfl⟩
  | @commitFile a session _ _ _ _ _ hrow _ _ _ hsessions =>
    rw [hsessions, completeSession, Table.lookup_modify] at hr
    split at hr
    · next hsid =>
      rw [hsid, hrow, Option.map_some] at hr
      cases hr
      exact .inr ⟨session, by rw [hsid, hrow], rfl, rfl, rfl⟩
    · exact .inr ⟨r, hr, rfl, rfl, rfl⟩
  | markBlockVerified hclean => exact .inr ⟨r, by rw [← hclean.sessions, hr], rfl, rfl, rfl⟩

/-- The step of the induction over commits. -/
theorem Accounted.commit (hw : Accounted w) {i : Nat} {r : Res} {eff : Db → Db}
    (h : Makes w (eff w.db) c) : Accounted (w.commit i c r eff) where
  matched := h.matched hw
  declared := by
    intro t
    show (eff w.db).declaredBytes t =
      ((w.journal ++ [(⟨i, c, r, eff⟩ : Commit Db Call Res)]).map fun e => e.call.declares t).sum
    rw [h.declared t, hw.declared t, List.map_append, List.sum_append, List.map_singleton,
      List.sum_singleton]
  opened := by
    intro sid row hrow
    rcases h.opened hrow with hnew | ⟨r₀, hr₀, ht, hn, hsize⟩
    · exact ⟨_, List.mem_append_right _ (List.mem_singleton_self _), hnew⟩
    · obtain ⟨e, he, a, hcall, ht', hn', hsize'⟩ := hw.opened sid r₀ hr₀
      exact ⟨e, List.mem_append_left _ he, a, hcall, ht.trans ht', hn.trans hn',
        hsize.trans hsize'⟩
  placed := by
    intro e he a hcall
    rcases List.mem_append.1 he with he | he
    · exact h.nodes (hw.placed e he a hcall)
    · obtain rfl := List.mem_singleton.1 he
      cases hcall
      cases h with
      | createFileNode hr ht hnone =>
        show (eff w.db).nodeTenant a.nodeId = some a.tenantId
        rw [nodeTenant, hr.nodes, Table.lookup_insertNew, if_pos rfl, hnone, ← ht]
        rfl

/-! ## What the locks protect -/

/-- A writer's lock on a session, a version or a node protects its row. -/
def ProtectsRow : DbLock → Db → Db → Prop
  | .row (.session s) m, d, d' => m.writes = true → d.sessions.lookup s = d'.sessions.lookup s
  | .row (.version v) m, d, d' => m.writes = true → d.versions.lookup v = d'.versions.lookup v
  | .row (.node n) m, d, d' => m.writes = true → d.nodes.lookup n = d'.nodes.lookup n
  | _, _, _ => True

def rowLocks : Footprint Db DbLock where
  Agree := ProtectsRow
  Mark := fun _ => False
  refl := by
    intro l d
    unfold ProtectsRow
    split <;> simp
  trans := by
    intro l a b c hab hbc
    unfold ProtectsRow at *
    split <;> simp_all

/-- The change makes of what `get` reads something by that alone, and leaves it alone unless it is
locked. -/
def Local {V : Type} (get : Db → Option V) (k : RowKey) (ls : List DbLock) (f : Db → Db) : Prop :=
  (∀ d d', get d = get d' → get (f d) = get (f d')) ∧
    ((∃ m, m.writes = true ∧ .row k m ∈ ls) ∨ ∀ d, get (f d) = get d)

variable {v : Uuid} {f : Db → Db} {r : VersionRow} {ls : List DbLock}

theorem Local.same {get : Db → Option V} (h : ∀ d, get (f d) = get d) : Local get k ls f :=
  ⟨fun d d' hd => by rw [h, h, hd], .inr h⟩

/-- A compatible writer's lock is on a row that the change leaves alone. -/
theorem Local.frame {get : Db → Option V} (h : Local get k ls f) (hm' : m'.writes = true)
    (hl : ∀ m ∈ ls, Lock.conflicts m (.row k m') = false) (d : Db) : get d = get (f d) := by
  rcases h.2 with ⟨m, hm, hmem⟩ | hsame
  · exact absurd rfl (DbLock.ne_of_compatible hl hm hm' hmem)
  · exact (hsame d).symm

/-- A change to single rows under their locks. -/
theorem rowLocks_covered (hsessions : ∀ s, Local (fun d => d.sessions.lookup s) (.session s) ls f)
    (hversions : ∀ v, Local (fun d => d.versions.lookup v) (.version v) ls f)
    (hnodes : ∀ n, Local (fun d => d.nodes.lookup n) (.node n) ls f) : rowLocks.Covered ls f where
  loc := by
    intro l d d' _ hl
    simp only [rowLocks, ProtectsRow] at hl ⊢
    split
    · exact fun hm => (hsessions _).1 _ _ (hl hm)
    · exact fun hm => (hversions _).1 _ _ (hl hm)
    · exact fun hm => (hnodes _).1 _ _ (hl hm)
    · trivial
  frame := by
    intro l d hl
    simp only [rowLocks, ProtectsRow]
    split
    · exact fun hm => (hsessions _).frame hm hl _
    · exact fun hm => (hversions _).frame hm hl _
    · exact fun hm => (hnodes _).frame hm hl _
    · trivial

/-- A change to one row of a table, under its lock. -/
theorem Local.row {K V : Type} [DecidableEq K] {get : Db → K → Option V} {key : K → RowKey} {k : K}
    (g : Option V → Option V)
    (hf : ∀ d x, get (f d) x = if x = k then g (get d x) else get d x) (hm : m.writes = true)
    (hk : .row (key k) m ∈ ls) (x : K) : Local (fun d => get d x) (key x) ls f := by
  refine ⟨fun d d' hd => by simp only [hf, hd], ?_⟩
  rcases eq_or_ne x k with rfl | hne
  · exact .inl ⟨m, hm, hk⟩
  · exact .inr fun d => by simp only [hf, if_neg hne]

theorem covered_version (hv : .row (.version v) .update ∈ ls) :
    rowLocks.Covered ls (insertVersion v r) :=
  rowLocks_covered (fun _ => .same fun _ => rfl)
    (.row (some <| ·.getD r) (fun _ _ => lookup_insertVersion ..) rfl hv)
    fun _ => .same fun _ => rfl

theorem covered_node {r : NodeRow} (hn : .row (.node n) .update ∈ ls) :
    rowLocks.Covered ls (Db.insertNode n r) :=
  rowLocks_covered (fun _ => .same fun _ => rfl) (fun _ => .same fun _ => rfl)
    (.row (some <| ·.getD r) (fun _ _ => Table.lookup_insertNew ..) rfl hn)

theorem covered_session {r : SessionRow} (hs : .row (.session s) .update ∈ ls) :
    rowLocks.Covered ls (insertSession s r) :=
  rowLocks_covered (.row (some <| ·.getD r) (fun _ _ => Table.lookup_insertNew ..) rfl hs)
    (fun _ => .same fun _ => rfl) fun _ => .same fun _ => rfl

theorem covered_completed :
    rowLocks.Covered [.row (.session s) .noKeyUpdate] (completeSession s k) :=
  rowLocks_covered
    (.row (Option.map _) (fun _ _ => Table.lookup_modify ..) rfl (List.mem_singleton_self _))
    (fun _ => .same fun _ => rfl) fun _ => .same fun _ => rfl

/-! ## The calls -/

/-- `p` takes points where `A` holds to points where `B` holds, whatever other transactions do
meanwhile. -/
abbrev Leads {β : Type} (A : List DbLock → World Db Call Res → Db → Prop) (p : Stmt β)
    (B : β → List DbLock → World Db Call Res → Db → Prop) : Prop :=
  rowLocks.Triple Accounted (fun _ => False) A p B

/-- A program that writes other tables leaves an assertion about nodes, sessions and versions
true. -/
theorem leads_onBlocks
    (hA : ∀ {held held' w u u'}, A held w u → held ⊆ held' → u'.nodes = u.nodes →
      u'.sessions = u.sessions → u'.versions = u.versions → A held' w u') (hp : p.Uses OnBlocks) :
    Leads A p fun _ => A := by
  refine Triple.uses hp (fun f hf ls => ?_) (fun f hf {_ _ _ u} hs hu => ?_) fun _ => id
  · exact rowLocks_covered (fun s => .same fun d => by rw [(hf d).2.1])
      (fun v => .same fun d => by rw [(hf d).2.2]) fun n => .same fun d => by rw [(hf d).1]
  · exact hA hu hs (hf u).1 (hf u).2.1 (hf u).2.2

theorem onBlocks_id : OnBlocks id := fun _ => ⟨rfl, rfl, rfl⟩

/-- What only reads leaves a clean view clean. -/
theorem leads_clean (hp : p.Uses OnBlocks) :
    Leads (fun _ w u => Clean w u) p fun _ _ w u => Clean w u :=
  leads_onBlocks (A := fun _ w u => Clean w u)
    (fun h _ hn hs hv => ⟨hn.trans h.nodes, hs.trans h.sessions, hv.trans h.versions⟩) hp

/-- The transaction holds a version that is not there. -/
def Unversioned (v : Uuid) (held : List DbLock) (w : World Db Call Res) : Prop :=
  .row (.version v) .update ∈ held ∧ w.db.versions.lookup v = none

/-- **An INSERT** adds a row that was not there; what follows it writes other tables. -/
theorem insert_leads {k : RowKey} {there : Db → Bool} {f : Db → Db} {locks : List DbLock} {e : Err}
    {p : Db → Stmt Unit} {N : World Db Call Res → Db → Prop} (hk : .row k .update ∈ locks)
    (hcov : ∀ ls, .row k .update ∈ ls → rowLocks.Covered ls f)
    (hN : ∀ {w u}, Clean w u → N w (f u))
    (hthere : ∀ {w u d}, Clean w u → rowLocks.Agree (.row k .update) w.db d → there u = there d)
    (hother : ∀ {w u u'}, N w u → u'.nodes = u.nodes → u'.sessions = u.sessions →
      u'.versions = u.versions → N w u')
    (hp : ∀ v, (p v).Uses OnBlocks) :
    Leads (fun _ w u => Clean w u) ((Prog.stmt (fun _ => locks) (fun _ => locks) fun _ => f).bind
        fun v => (Prog.check (!there v) e).bind fun _ => p v)
      fun _ held w u => N w u ∧ .row k .update ∈ held ∧ there w.db = false := by
  refine Triple.bind (M := fun v held w u => N w u ∧ .row k .update ∈ held ∧ there v = there w.db)
    (Triple.stmt (fun _ _ hl => .inr hl) (fun _ _ _ _ _ => hcov _ (List.mem_append_left _ hk)) ?_)
    fun v => Triple.checked id fun hnew => ?_
  · intro held w v w' u _ hv _ hu hbase _
    exact ⟨hN hu, List.mem_append_left _ hk, hthere hv (hbase _ (List.mem_append_left _ hk))⟩
  · refine Triple.post (leads_onBlocks (fun h hsub hn hs hv => ?_) (hp v)) fun _ _ w u _ hu => ?_
    · exact ⟨hother h.1 hn hs hv, hsub h.2.1, h.2.2⟩
    · exact ⟨hu.1, hu.2.1, hu.2.2.symm.trans (by simpa using hnew)⟩

/-- The new row of `file_versions`. -/
theorem insertFileVersion_leads :
    Leads (fun _ w u => Clean w u) (insertFileVersion v r)
      fun _ held w u => Versioned v r w u ∧ Unversioned v held w := by
  refine Triple.checked id fun _ => Triple.checked id fun _ => ?_
  refine (insert_leads (k := .version v) List.mem_cons_self (fun _ => covered_version)
    (N := Versioned v r) ?_ ?_ ?_
    fun _ => Uses.check.bind fun _ => references_uses onBlocks_id).post ?_
  · exact fun hu => ⟨hu.nodes, hu.sessions, by rw [insertVersion, hu.versions]⟩
  · exact fun hu hsame => by rw [hasVersion, hasVersion, hu.versions, hsame rfl]
  · exact fun h hn hs hv => ⟨hn.trans h.nodes, hs.trans h.sessions, hv.trans h.versions⟩
  · rintro _ held w u - ⟨hu, hheld, hnew⟩
    exact ⟨hu, hheld, by simpa [hasVersion] using hnew⟩

/-- Step 8 of `CommitFile` completes the session it holds. -/
theorem markCompleted_leads :
    Leads (fun held w u => (Versioned v r w u ∧ Unversioned v held w) ∧
        OnSession sid session held w) (markCompleted sid k) fun _ held w u =>
      u.nodes = w.db.nodes ∧ u.versions = w.db.versions.insertNew v r ∧
        u.sessions = (completeSession sid k w.db).sessions ∧ Unversioned v held w ∧
        OnSession sid session held w := by
  have hthere : ∀ {held w u}, Versioned v r w u → OnSession sid session held w →
      hasSession sid u = true := by
    intro held w u hu hses
    rw [hasSession, hu.sessions, hses.2]
    rfl
  refine Triple.bind (M := fun s held w u => hasSession sid s = true ∧
    (Versioned v r w u ∧ Unversioned v held w) ∧ OnSession sid session held w)
    (Triple.read ?_) fun s => ?_
  · intro held w s w' u _ hs _ hu _ _
    exact ⟨hthere hs.1.1 hs.2, hu⟩
  refine Triple.assume (fun _ _ _ _ hu => hu.1) fun hs => ?_
  rw [if_pos hs]
  refine Triple.bind (rewriteRow_triple covered_completed (fun _ h => h) ?_)
    fun _ => Triple.ret fun _ _ _ _ hu => hu
  rintro held held' w s w' u - ⟨-, ⟨hs, -⟩, hses⟩ - ⟨-, ⟨hu, hfresh⟩, hses'⟩ hsub - - -
  rw [if_pos (hthere hs hses)]
  refine ⟨hu.nodes, hu.versions, ?_, ⟨hsub hfresh.1, hfresh.2⟩, hsub hses'.1, hses'.2⟩
  rw [completeSession, hu.sessions]
  rfl

/-- `CommitFile` adds a version for the session that it completes. -/
theorem commitFile_leads :
    Leads (fun _ w u => Clean w u) (Ingress.commitFile a) fun _ _ w u =>
      Makes w u (.commitFile a) := by
  refine Triple.bind (lockSession_triple (fun _ _ h => h rfl) fun hu => hu.sessions) fun v => ?_
  split
  · exact Triple.raise id
  · next session hrow =>
    refine Triple.bind (M := fun _ held w u => session.status ≠ .completed ∧ Clean w u ∧
      OnSession a.sessionId session held w) ?_ fun _ => ?_
    · refine Triple.checked id fun hstatus => ?_
      refine Triple.checked id fun _ => Triple.checked id fun _ => (Triple.guard id).post ?_
      rintro - held w u - ⟨-, hu, hses⟩
      exact ⟨by simpa using hstatus, hu, hses session hrow⟩
    split
    · exact Triple.raise id
    · next n hnode =>
      refine Triple.given fun hopen => ?_
      refine Triple.bind ((leads_clean (forUpdate_uses onBlocks_id)).frame
        (OnSession.stable fun _ _ h => h rfl)) fun _ => ?_
      refine Triple.bind ((leads_clean (nextVersionNumber_uses onBlocks_id)).frame
        (OnSession.stable fun _ _ h => h rfl)) fun number => ?_
      refine Triple.bind (insertFileVersion_leads.frame
        (OnSession.stable fun _ _ h => h rfl)) fun _ => ?_
      -- what is left concerns other tables, up to the session
      have hother : ∀ {p : Stmt Unit}, p.Uses OnBlocks →
          Leads (fun held w u => (Versioned a.versionId ⟨n, number, session.totalSize,
              a.contentSha256, a.tenantId⟩ w u ∧ Unversioned a.versionId held w) ∧
              OnSession a.sessionId session held w) p fun _ held w u =>
            (Versioned a.versionId ⟨n, number, session.totalSize, a.contentSha256,
              a.tenantId⟩ w u ∧ Unversioned a.versionId held w) ∧
              OnSession a.sessionId session held w := by
        refine leads_onBlocks ?_
        rintro held held' w u u' ⟨⟨hu, hfresh⟩, hses⟩ hsub hn hs hv
        exact ⟨⟨⟨hn.trans hu.nodes, hs.trans hu.sessions, hv.trans hu.versions⟩, hsub hfresh.1,
          hfresh.2⟩, hsub hses.1, hses.2⟩
      refine Triple.bind (hother upsertBlocks_onBlocks) fun _ => ?_
      refine Triple.bind (hother insertManifestBlocks_onBlocks) fun _ => ?_
      refine Triple.bind markCompleted_leads fun _ => Triple.ret ?_
      rintro held w u - ⟨hnodes, hversions, hsessions, hfresh, hses⟩
      exact .commitFile hnodes hfresh.2 hversions hses.2 hopen hnode rfl hsessions

/-- The INSERT of a node adds a row that was not there. -/
theorem insertNodeRow_leads {r : NodeRow} :
    Leads (fun _ w u => Clean w u) (Namespace.insertNodeRow n r) fun _ _ w u =>
      Rooted n r w u ∧ w.db.nodes.lookup n = none := by
  refine Triple.checked id fun _ => Triple.checked id fun _ => ?_
  refine (insert_leads (k := .node n) List.mem_cons_self (fun _ => covered_node)
    (N := Rooted n r) ?_ ?_ ?_ fun _ => Uses.check.bind fun _ => ?_).post ?_
  · exact fun hu => ⟨by rw [Db.insertNode, hu.nodes], hu.sessions, hu.versions⟩
  · exact fun hu hsame => by rw [hasNode, hasNode, hu.nodes, hsame rfl]
  · exact fun h hn hs hv => ⟨hn.trans h.nodes, hs.trans h.sessions, hv.trans h.versions⟩
  · refine Uses.check.bind fun _ => (references_uses onBlocks_id).bind fun _ => ?_
    cases r.parentId with
    | none => exact Uses.ret
    | some p => exact references_uses onBlocks_id
  · rintro _ held w u - ⟨hu, -, hnew⟩
    exact ⟨hu, by simpa [hasNode] using hnew⟩

/-- The INSERT of a session adds a row that was not there. -/
theorem insertSession_leads :
    Leads (fun _ w u => Clean w u) (createUploadSession a) fun _ _ w u =>
      Sessioned a.sessionId a.row w u ∧ w.db.sessions.lookup a.sessionId = none := by
  refine Triple.checked id fun _ => Triple.checked id fun _ => Triple.checked id fun _ => ?_
  refine (insert_leads (k := .session a.sessionId) List.mem_cons_self (fun _ => covered_session)
    (N := Sessioned a.sessionId a.row) ?_ ?_ ?_ ?_).post ?_
  · exact fun hu => ⟨hu.nodes, by rw [insertSession, hu.sessions], hu.versions⟩
  · exact fun hu hsame => by rw [hasSession, hasSession, hu.sessions, hsame rfl]
  · exact fun h hn hs hv => ⟨hn.trans h.nodes, hs.trans h.sessions, hv.trans h.versions⟩
  · exact fun _ => (references_uses onBlocks_id).bind fun _ => references_uses onBlocks_id
  · rintro _ held w u - ⟨hu, -, hnew⟩
    exact ⟨hu, by simpa [hasSession] using hnew⟩

/-- **Every call** makes of nodes, sessions and versions what `Makes` says. -/
theorem body_leads (c : Call) :
    Leads (fun _ w u => Clean w u) c.body fun _ _ w u => Makes w u c := by
  cases c with
  | createFileNode a =>
    refine Triple.bind (M := fun _ _ w u => Makes w u (.createFileNode a)) ?_
      fun _ => Triple.ret fun _ _ _ _ hu => hu
    rw [unmarked_insertNode]
    refine Triple.bind (leads_clean (Uses.check.bind fun _ => Uses.ret)) fun name => ?_
    refine Triple.bind (leads_clean (lineageGuardInsert_uses onBlocks_id)) fun path => ?_
    exact insertNodeRow_leads.post fun _ _ _ _ _ hu => .createFileNode hu.1 rfl hu.2
  | createUploadSession a =>
    refine Triple.bind (M := fun _ _ w u => Makes w u (.createUploadSession a)) ?_
      fun _ => Triple.ret fun _ _ _ _ hu => hu
    exact insertSession_leads.post fun _ _ _ _ _ hu =>
      .createUploadSession hu.1.nodes hu.1.versions hu.2 hu.1.sessions
  | commitFile a =>
    exact Triple.bind commitFile_leads fun _ => Triple.ret fun _ _ _ _ hu => hu
  | markBlockVerified h =>
    refine Triple.post (leads_clean ?_) fun _ _ _ _ _ hu => .markBlockVerified hu
    refine Uses.bind ?_ fun _ => Uses.ret
    have hwrite : OnBlocks (Db.verifyBlock h) := fun _ => ⟨rfl, rfl, rfl⟩
    refine (Uses.read onBlocks_id).bind fun _ => Uses.ite (fun _ => ?_) fun _ => Uses.ret
    exact (rewriteRow_uses onBlocks_id hwrite).bind fun _ => Uses.ret

/-- The protocol of the pool. -/
abbrev accounting : Protocol Db DbLock Err Call Res :=
  rowLocks.protocol Accounted fun _ => False

theorem body_commits (c : Call) (w : World Db Call Res) (hw : Accounted w) :
    accounting.wp c.body (accounting.Commits c) [] id w :=
  (body_leads c).commits (fun _ _ => ⟨rfl, rfl, rfl⟩) (fun _ _ _ _ _ hw h => hw.commit h) hw

end Aegis.Ingress.Handlers
