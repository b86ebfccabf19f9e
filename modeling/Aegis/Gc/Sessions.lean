import Aegis.Database.Client
import Aegis.Gc.Collectors
import Aegis.Ingress.Versions

/-!
# Upload sessions and their cleanup

`cleanupExpiredSessions` (internal/gc/gc.go) over `GetExpiredSessions` and `MarkSessionExpired`
(cmd/ingest/gc_adapter.go), beside the transactions of `CommitFile`, in any interleaving of single
statements under a clock that does not run backwards. The UPDATE of `MarkSessionExpired` does not
look at the status, so one that waits for a commit would turn a completed session into an expired
one. But the adapter passes the class `gc` to the client, which has no pool for it: the query is
refused, the cleanup returns at its error (`advance_cleanupExpiredSessions`), and an UPDATE would be
refused as well. No marking transaction is ever started, and a completed session stays completed.
-/

namespace Aegis.Gc

/-- `SessionInfo`. -/
structure SessionInfo where
  id : Uuid
  tenantId : Uuid
  expiresAt : Time

end Aegis.Gc

namespace Aegis.Db

/-- `SET status = 'EXPIRED'`. -/
def expireSession (s : Uuid) (d : Db) : Db :=
  { d with sessions := Table.modify s (fun r => { r with status := .expired }) d.sessions }

/-- The query of `GetExpiredSessions`: sessions that are not completed and past their
`expires_at`, the earliest first. -/
def expiredSessions (d : Db) (now : Time) (limit : Int) : List Gc.SessionInfo :=
  let rows := d.sessions.entries.filter fun e =>
    e.2.status != .completed && decide (e.2.expiresAt < now)
  ((rows.insertionSort fun a b => a.2.expiresAt ≤ b.2.expiresAt).take limit.toNat).map fun e =>
    ⟨e.1, e.2.tenantId, e.2.expiresAt⟩

end Aegis.Db

namespace Aegis.Gc.Sessions

open Db Stmt Txn Txn.Prog Ingress

open Database (OpClass DatabaseClient opWrite opRead opMetadata opAnalytical newCircuitBreaker)

/-! ## The cleanup -/

/-- The audit entry of a recycled session. -/
structure SessionAudit where
  action : String
  sessionId : Uuid
  tenantId : Uuid
  reason : String

/-- The calls of the cleanup. -/
inductive Cmd
  | getExpiredSessions (limit : Int)
  | markSessionExpired (id : Uuid)
  | audit (e : SessionAudit)

/-- The answers: the sessions or an error, whether there was no error, nothing. -/
def Answer : Cmd → Type
  | .getExpiredSessions _ => Option (List SessionInfo)
  | .markSessionExpired _ => Bool
  | .audit _ => Unit

abbrev Cleanup (β : Type) : Type := Proc Cmd Answer β

def getExpiredSessions (limit : Int) : Cleanup (Option (List SessionInfo)) :=
  Proc.perform (Cmd.getExpiredSessions limit)

def markSessionExpired (id : Uuid) : Cleanup Bool := Proc.perform (Cmd.markSessionExpired id)

def audit (e : SessionAudit) : Cleanup Unit := Proc.perform (Cmd.audit e)

/-- One round of the loop: a session that cannot be marked is passed over. -/
def recycle (s : SessionInfo) : Cleanup Unit := do
  if ← markSessionExpired s.id then
    audit ⟨"session_expired", s.id, s.tenantId, "stale upload not committed within grace period"⟩

/-- `cleanupExpiredSessions`. -/
def cleanupExpiredSessions (gc : GarbageCollector) : Cleanup Unit := do
  match ← getExpiredSessions gc.cfg.batchSize with
  | none => return
  | some sessions => Proc.forEach recycle sessions

/-! ## Transactions on sessions -/

/-- `UPDATE upload_sessions SET status = 'EXPIRED' WHERE id = s`. -/
def setExpired (s : Uuid) : Stmt Unit := do
  let v ← read
  if hasSession s v then
    let _ ← rewriteRow (.session s) .noKeyUpdate (hasSession s) (hasSession s) (expireSession s)

inductive Call
  | commitFile (a : CommitFile)
  | markSessionExpired (id : Uuid)

inductive Res
  | committed (versionId : Uuid) (number : Int)
  | marked

def Call.body : Call → Stmt Res
  | commitFile a => do
    let (versionId, number) ← Ingress.commitFile a
    return .committed versionId number
  | markSessionExpired id => do
    setExpired id
    return .marked

/-- The status a call sets. -/
def Call.sets : Call → SessionStatus
  | commitFile _ => .completed
  | markSessionExpired _ => .expired

/-- Every session keeps its status, or has the one that the call sets. -/
def Touches (c : Call) (d d' : Db) : Prop :=
  ∀ id st, sessionStatus d id = some st → sessionStatus d' id = some st ∨
    sessionStatus d' id = some c.sets

variable {c : Call}

theorem Touches.refl (d : Db) : Touches c d d := fun _ _ h => .inl h

theorem Touches.trans (h : Touches c d₁ d₂) (h' : Touches c d₂ d₃) : Touches c d₁ d₃ := by
  intro id st hst
  rcases h id st hst with hsame | hset
  · exact h' id st hsame
  · exact .inr (or_self_iff.1 (h' id c.sets hset))

/-- An UPDATE of one session's status. -/
theorem touches_modify (hst : ∀ r, (f r).status = c.sets) (k : Uuid) :
    Touches c d { d with sessions := Table.modify k f d.sessions } := by
  intro id st h
  obtain ⟨r, hr, hrst⟩ := Option.map_eq_some_iff.1 h
  simp only [sessionStatus, Table.lookup_modify, hr]
  split
  · exact .inr (congrArg some (hst r))
  · exact .inl (congrArg some hrst)

/-- The calls change sessions as `Touches` says. -/
theorem body_touches (c : Call) : c.body.Within (Touches c) := by
  cases c with
  | commitFile a =>
    refine Within.bind (commitFile_uses.within fun f hw d => ?_) fun _ => Within.ret
    cases hw with
    | skip => exact Touches.refl d
    | fileSession => exact touches_modify (fun _ => rfl) _
    | fileVersion _ _ _ | fileBlock _ | fileManifest _ | fileRef _ => exact fun _ _ h => .inl h
  | markSessionExpired id =>
    refine Within.bind ((Within.read Touches.refl).bind fun _ => ?_) fun _ => Within.ret
    refine Within.ite (fun _ => ?_) fun _ => Within.ret
    refine (rewriteRow_within Touches.refl fun d => ?_).bind fun _ => Within.ret
    exact touches_modify (fun _ => rfl) _

/-! ## The system -/

/-- A cleanup at work: it runs, or it waits for the transaction that marks a session. -/
inductive Process
  | running (p : Cleanup Unit)
  | marking (tx : Nat) (id : Uuid) (next : Bool → Cleanup Unit)

/-- The pool of transactions, the cleanups, and the clock. -/
structure State where
  pool : Sys Db DbLock Err Call Res
  procs : List Process
  clock : Time

namespace State

def init (d : Db) (clock : Time) : State := ⟨Sys.init d, [], clock⟩

/-- The committed database. -/
def db (s : State) : Db := s.pool.world.db

def put (s : State) (i : Nat) (q : Process) : State := { s with procs := s.procs.set i q }

end State

/-- What can happen: a step of a `CommitFile` transaction or of a marking one, the start of a
cleanup, a call of one, which succeeds or not, the end of one, and the passing of time. A call finds
the client as other statements have left it. -/
inductive Act
  | commitFile (a : CommitFile)
  | exec (i : Nat)
  | commit (i : Nat)
  | abort (i : Nat)
  | launch (gc : GarbageCollector)
  | advance (i : Nat) (client : DatabaseClient) (ok : Bool)
  | crash (i : Nat)
  | tick (t : Time)

/-- The class that `gcStoreAdapter` passes with every statement. -/
def adapterClass : OpClass := "gc"

/-- The answer to a call. Marking is answered by its transaction instead. -/
def reply (d : Db) (now : Time) (client : DatabaseClient) (ok : Bool) : (c : Cmd) → Answer c
  | .getExpiredSessions limit =>
    match (client.pickPool now adapterClass).1 with
    | some _ => if ok then some (d.expiredSessions now limit) else none
    | none => none
  | .markSessionExpired _ => false
  | .audit _ => ()

/-- The clock reading of `CommitFile` is not in the future. -/
def Call.readBy (now : Time) : Call → Bool
  | .commitFile a => a.clock ≤ now
  | .markSessionExpired _ => true

namespace State

/-- A step of the pool. -/
def txn (s : State) (a : Action Call) : Option State :=
  (s.pool.step Call.body a).map fun pool => { s with pool := pool }

/-- One call of a cleanup. -/
def advance (s : State) (i : Nat) (client : DatabaseClient) (ok : Bool) : Option State :=
  match s.procs[i]? with
  | some (.running (.call (.markSessionExpired id) next)) =>
    match (client.acquire s.clock adapterClass).1 with
    | .ok _ =>
      (s.txn (.start (.markSessionExpired id))).map fun s' =>
        s'.put i (.marking s.pool.txns.length id next)
    | .error _ => some (s.put i (.running (next false)))
  | some (.running (.call c next)) =>
    some (s.put i (.running (next (reply s.db s.clock client ok c))))
  | some (.marking tx _ next) =>
    match (s.pool.txns[tx]?).map Tx.phase with
    | some (.committed _) => some (s.put i (.running (next ok)))
    | some (.failed _) => some (s.put i (.running (next false)))
    | some .aborted => some (s.put i (.running (next false)))
    | _ => none
  | _ => none

/-- One action, if it is possible. The process clock is read between the start of a `CommitFile`
transaction and its end. -/
def step (s : State) : Act → Option State
  | .commitFile a => if s.clock ≤ a.clock then s.txn (.start (.commitFile a)) else none
  | .exec i => s.txn (.exec i)
  | .commit i =>
    if (s.pool.txns[i]?).all fun t => t.call.readBy s.clock then s.txn (.commit i) else none
  | .abort i => s.txn (.abort i)
  | .launch gc => some { s with procs := s.procs ++ [.running (cleanupExpiredSessions gc)] }
  | .advance i client ok => s.advance i client ok
  | .crash i => some (s.put i (.running (.ret ())))
  | .tick t => if s.clock ≤ t then some { s with clock := t } else none

/-- A whole run. -/
abbrev run : State → List Act → Option State := Run.run step

end State

/-! ## The class of the adapter -/

variable {s s' : State}

theorem adapterClass_unknown : adapterClass ∉ [opWrite, opRead, opMetadata, opAnalytical] := by
  decide

/-- **A cleanup returns at its query**, which is refused. -/
theorem advance_cleanupExpiredSessions
    (hi : s.procs[i]? = some (.running (cleanupExpiredSessions gc))) (client : DatabaseClient)
    (ok : Bool) : s.advance i client ok = some (s.put i (.running (.ret ()))) := by
  rw [State.advance, hi]
  simp only [cleanupExpiredSessions, getExpiredSessions, Proc.perform, reply,
    DatabaseClient.pickPool_unknown adapterClass_unknown]
  rfl

/-! ## The invariant -/

/-- **The invariant**: every transaction is one of `CommitFile`. -/
structure Lawful (s : State) : Prop where
  bounded : Sys.Bounded Touches s.pool
  commits : ∀ (i : Nat) (t : Tx Db DbLock Err Call Res), s.pool.txns[i]? = some t →
    ∃ a, t.call = .commitFile a

/-- Completed sessions stay completed. -/
def KeepsCompleted (d d' : Db) : Prop :=
  ∀ id, sessionStatus d id = some .completed → sessionStatus d' id = some .completed

/-- A step keeps the invariant, and completed sessions completed. -/
def Keeps (s s' : State) : Prop := Lawful s' ∧ KeepsCompleted s.db s'.db

theorem lawful_init (d : Db) (clock : Time) : Lawful (.init d clock) where
  bounded := Sys.bounded_init d
  commits := by simp [State.init, Sys.init]

/-- What touches neither the pool nor the database. -/
theorem Lawful.of_pool_eq (hs : Lawful s) (h : s'.pool = s.pool) : Keeps s s' := by
  refine ⟨⟨h ▸ hs.bounded, fun i t hi => hs.commits i t (h ▸ hi)⟩, fun id hid => ?_⟩
  rwa [State.db, h]

/-- A step of the pool that starts no marking transaction. -/
theorem Lawful.txn (hs : Lawful s) (hstep : s.txn a = some s')
    (hstart : ∀ c, a = .start c → ∃ f, c = .commitFile f) : Keeps s s' := by
  obtain ⟨pool, hpool, rfl⟩ := Option.map_eq_some_iff.1 hstep
  have hd := Sys.does_of_step hpool
  refine ⟨⟨hs.bounded.does (fun _ => Touches.refl) Touches.trans body_touches hd, ?_⟩, ?_⟩
  · intro i t hi
    rcases hd.call_of hi with ⟨t₀, hi₀, hcall₀, -⟩ | rfl
    · exact hcall₀ ▸ hs.commits i t₀ hi₀
    · exact hstart t.call rfl
  · intro id hid
    rcases hd.db_eq with hdb | ⟨i, c, held, eff, r, rfl, hi, hdb⟩
    · exact (congrArg (sessionStatus · id) hdb).trans hid
    · -- what commits is a `CommitFile` transaction, which sets no other status
      obtain ⟨f, rfl⟩ := hs.commits i _ hi
      have hset := (hs.bounded i _ hi).1 s.db id _ hid
      exact (congrArg (sessionStatus · id) hdb).trans (or_self_iff.1 hset)

/-- A call of a cleanup. -/
theorem Lawful.advance (hs : Lawful s) (hstep : s.advance i client ok = some s') : Keeps s s' := by
  rw [State.advance] at hstep
  split at hstep
  · rw [DatabaseClient.acquire_unknown adapterClass_unknown] at hstep
    cases hstep
    exact hs.of_pool_eq rfl
  · cases hstep
    exact hs.of_pool_eq rfl
  · split at hstep
    · cases hstep
      exact hs.of_pool_eq rfl
    · cases hstep
      exact hs.of_pool_eq rfl
    · cases hstep
      exact hs.of_pool_eq rfl
    · cases hstep
  · cases hstep

/-- **One action** keeps the invariant, and completed sessions completed. -/
theorem Lawful.step (hs : Lawful s) (hstep : s.step a = some s') : Keeps s s' := by
  cases a with
  | commitFile a =>
    rw [State.step] at hstep
    split at hstep
    · exact hs.txn hstep (by rintro _ ⟨⟩; exact ⟨a, rfl⟩)
    · cases hstep
  | exec i => exact hs.txn (a := .exec i) hstep fun _ h => nomatch h
  | commit i =>
    rw [State.step] at hstep
    split at hstep
    · exact hs.txn (a := .commit i) hstep fun _ h => nomatch h
    · cases hstep
  | abort i => exact hs.txn (a := .abort i) hstep fun _ h => nomatch h
  | launch gc =>
    cases hstep
    exact hs.of_pool_eq rfl
  | advance i client ok => exact hs.advance hstep
  | crash i =>
    cases hstep
    exact hs.of_pool_eq rfl
  | tick t =>
    rw [State.step] at hstep
    split at hstep
    · cases hstep
      exact hs.of_pool_eq rfl
    · cases hstep

/-! ## Runs -/

/-- **Every run** keeps the invariant, and completed sessions completed. -/
theorem Lawful.run {acts : List Act} (hs : Lawful s) (hrun : s.run acts = some s') : Keeps s s' :=
  Run.invariant (I := Keeps s)
    (fun h hstep =>
      let ⟨hs', hkeep⟩ := h.1.step hstep
      ⟨hs', fun id hid => hkeep id (h.2 id hid)⟩)
    ⟨hs, fun _ h => h⟩ hrun

/-- **Completed is final**: a session that is committed as completed is so in every later state. -/
theorem completed_final {d : Db} {clock : Time} {as bs : List Act} {s₁ s₂ : State}
    (h₁ : (State.init d clock).run as = some s₁) (h₂ : s₁.run bs = some s₂) {id : Uuid}
    (hc : sessionStatus s₁.db id = some .completed) :
    sessionStatus s₂.db id = some .completed :=
  (((lawful_init d clock).run h₁).1.run h₂).2 id hc

/-- The session is committed, with an expiry check at 40; a cleanup that starts at 60 comes to its
query while the commit is under way. -/
def cleanDuringCommit : List Act :=
  .commitFile ⟨1, 3, 9, [⟨7, 0, 0, 4⟩], 10, 40, 40⟩ :: List.replicate 15 (.exec 0) ++
    [.tick 60, .launch (.new true ⟨0, 0, 0, false⟩),
      .advance 0 ⟨newCircuitBreaker, 1, 0⟩ true, .commit 0]

/-- The next cleanup finds the session completed and leaves it so. -/
theorem completed_final_cleanDuringCommit :
    ∃ s₁ s₂, (State.init oneSessionSeed 40).run cleanDuringCommit = some s₁ ∧
      s₁.run [.launch (.new true ⟨0, 0, 0, false⟩), .advance 1 ⟨newCircuitBreaker, 1, 0⟩ true,
        .tick 70] = some s₂ ∧
      sessionStatus s₁.db 3 = some .completed ∧ sessionStatus s₂.db 3 = some .completed := by
  have hrun : ((State.init oneSessionSeed 40).run cleanDuringCommit).bind (fun s₁ =>
      (s₁.run [.launch (.new true ⟨0, 0, 0, false⟩), .advance 1 ⟨newCircuitBreaker, 1, 0⟩ true,
        .tick 70]).map fun s₂ => (sessionStatus s₁.db 3, s₂.clock)) =
          some (some .completed, 70) := by
    decide +kernel
  obtain ⟨s₁, h₁, hrun⟩ := Option.bind_eq_some_iff.1 hrun
  obtain ⟨s₂, h₂, hthree, -⟩ := exists_of_map_eq_pair hrun
  exact ⟨s₁, s₂, h₁, h₂, hthree, completed_final h₁ h₂ hthree⟩

end Aegis.Gc.Sessions
