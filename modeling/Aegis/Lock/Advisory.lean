import Aegis.Lib.Reentrant
import Aegis.Lib.Run
import Aegis.Lock.Redis

/-!
# Advisory locks of PostgreSQL

`PostgresAdvisoryLocker` (internal/lock/advisory.go) locks a resource by the number that FNV-1a
makes of its name. `Acquire` and `Release` are one statement each, and `pgxpool` runs it on any
session that is idle. `Refresh`, and `Release` of a token of another locker, return without a
statement.

PostgreSQL gives an advisory lock to the session that asks for it, lets that session take it again,
and takes it back from that session only; when a session ends, its locks are free. A token says
nothing of the session that its `Acquire` ran on. So the locks exclude each other only as long as
the pool happens to run `Acquire` on a session that does not have the lock yet, and `Release` on the
one that has it. A second `Release` of a token must not run there, since it would give back the
lock of a later token.
-/

namespace Aegis.Lock.Advisory

/-! ## The locker -/

/-- `hashKey`. -/
def hashKey (resource : List UInt8) : Int64 :=
  UInt64.toInt64 (resource.foldl (fun h c => (h ^^^ c.toUInt64) * 1099511628211)
    14695981039346656037)

/-- `PostgresToken`; durations are in nanoseconds. -/
structure PostgresToken where
  resource : List UInt8
  id : List Char
  lockID : Int64
  ttl : Int
  deriving DecidableEq

/-- The tokens of the two lockers. -/
inductive LockToken
  | postgres (token : PostgresToken)
  | redis (token : RedisToken)

/-- The statements of `PostgresAdvisoryLocker`. -/
inductive Statement
  | tryAdvisoryLock (lockID : Int64)
  | advisoryUnlock (lockID : Int64)

/-- The row of a statement, or why the query failed. -/
def Row (_ : Statement) : Type := Except String Bool

/-- A piece of a program that uses the locker. -/
abbrev Querying (β : Type) : Type := Proc Statement Row β

def tryAdvisoryLock (lockID : Int64) : Querying (Except String Bool) :=
  Proc.perform (Statement.tryAdvisoryLock lockID)

def advisoryUnlock (lockID : Int64) : Querying (Except String Bool) :=
  Proc.perform (Statement.advisoryUnlock lockID)

/-- The errors of the locker. -/
inductive AdvisoryError
  | held
  | expired
  | tryLock (err : String)
  | unlock (err : String)
  deriving DecidableEq

def AdvisoryError.text : AdvisoryError → String
  | .held => LockError.held.text
  | .expired => LockError.expired.text
  | .tryLock err => "pg_try_advisory_lock query error: " ++ err
  | .unlock err => "pg_advisory_unlock query error: " ++ err

/-- `Acquire`, with the id it generates. -/
def acquire (tokenId : List Char) (resource : List UInt8) (ttl : Int) :
    Querying (Except AdvisoryError PostgresToken) := do
  let lockID := hashKey resource
  match ← tryAdvisoryLock lockID with
  | .error e => return .error (.tryLock e)
  | .ok false => return .error .held
  | .ok true => return .ok ⟨resource, tokenId, lockID, ttl⟩

/-- `Release`. -/
def release : LockToken → Querying (Except AdvisoryError Unit)
  | .redis _ => return .error .expired
  | .postgres token => do
    match ← advisoryUnlock token.lockID with
    | .error e => return .error (.unlock e)
    | .ok false => return .error .expired
    | .ok true => return .ok ()

/-- `Refresh`. -/
def refresh (_ : LockToken) (_ : Int) : Querying (Except AdvisoryError Unit) := return .ok ()

/-! ## The pool -/

/-- A session of the pool. -/
abbrev Session : Type := Nat

/-- What PostgreSQL does with a statement of a session. -/
def exec (session : Session) :
    (s : Statement) → Locks Int64 Session → Row s × Locks Int64 Session
  | .tryAdvisoryLock lockID, l => let (row, l') := l.tryLock session lockID; (.ok row, l')
  | .advisoryUnlock lockID, l => let (row, l') := l.unlock session lockID; (.ok row, l')

/-- A call that is to send its statement. -/
inductive Request
  | acquire (tokenId : List Char) (resource : List UInt8) (ttl : Int)
  | release (token : PostgresToken)
  deriving DecidableEq

/-- The advisory locks, the calls in flight under the sessions they run on, and the tokens that were
acquired and none of whose releases has succeeded. -/
structure Pool where
  locks : Locks Int64 Session
  busy : Table Session Request
  outstanding : List PostgresToken

/-- A call gets a session, its statement runs and it returns, or its query fails; or an idle session
is closed. A connection that breaks under a call is a query that fails and a session that closes. -/
inductive Action
  | start (session : Session) (request : Request)
  | serve (session : Session)
  | fail (session : Session)
  | close (session : Session)

namespace Pool

def init : Pool := ⟨∅, ∅, []⟩

/-- `Acquire` on a session. -/
def acquire (x : Pool) (session : Session) (tokenId : List Char) (resource : List UInt8)
    (ttl : Int) : Except AdvisoryError PostgresToken × Locks Int64 Session :=
  (Advisory.acquire tokenId resource ttl).eval (exec session) x.locks

/-- `Release` on a session. -/
def release (x : Pool) (session : Session) (token : PostgresToken) :
    Except AdvisoryError Unit × Locks Int64 Session :=
  (Advisory.release (.postgres token)).eval (exec session) x.locks

/-- The statement of a call runs, and the call returns. A generated id is not that of an outstanding
token. -/
def serve (x : Pool) (session : Session) : Request → Option Pool
  | .acquire tokenId resource ttl =>
    if x.outstanding.any fun t => t.id = tokenId then none
    else
      match x.acquire session tokenId resource ttl with
      | (.ok token, locks) => some ⟨locks, x.busy.erase session, token :: x.outstanding⟩
      | (.error _, locks) => some ⟨locks, x.busy.erase session, x.outstanding⟩
  | .release token =>
    match x.release session token with
    | (.ok (), locks) =>
      some ⟨locks, x.busy.erase session, x.outstanding.filter fun t => t ≠ token⟩
    | (.error _, locks) => some ⟨locks, x.busy.erase session, x.outstanding⟩

/-- One action. A call gets an idle session. -/
def step (x : Pool) : Action → Option Pool
  | .start session request =>
    if (x.busy.lookup session).isSome then none
    else some { x with busy := x.busy.insert session request }
  | .serve session => (x.busy.lookup session).bind (x.serve session)
  | .fail session =>
    if (x.busy.lookup session).isSome then some { x with busy := x.busy.erase session } else none
  | .close session =>
    if (x.busy.lookup session).isSome then none
    else some { x with locks := x.locks.unlockAll session }

/-- The pool runs the call on the right session: `Acquire` on one that does not have the lock,
`Release` on the one that has it exactly if the token is outstanding. No session is closed that has
a lock. -/
def rightSession (x : Pool) : Action → Bool
  | .serve session =>
    match x.busy.lookup session with
    | some (.acquire _ resource _) => !decide (x.locks.Holds session (hashKey resource))
    | some (.release token) =>
      decide (x.locks.Holds session token.lockID) == decide (token ∈ x.outstanding)
    | none => true
  | .close session => x.locks.entries.all fun e => e.2.owner ≠ session
  | .start _ _ => true
  | .fail _ => true

end Pool

/-- **Discipline**: one token of a resource is outstanding at most; and `Release` of an outstanding
token returns nil, after which the resource can be acquired on every session. -/
structure Disciplined (x : Pool) : Prop where
  one : ∀ t ∈ x.outstanding, ∀ t' ∈ x.outstanding, t.resource = t'.resource → t = t'
  release : ∀ session token, x.busy.lookup session = some (.release token) →
    token ∈ x.outstanding → x.rightSession (.serve session) = true →
    (x.release session token).1 = .ok () ∧ ∃ x', x.step (.serve session) = some x' ∧
      ∀ session' tokenId ttl, (x'.acquire session' tokenId token.resource ttl).1 =
        .ok ⟨token.resource, tokenId, hashKey token.resource, ttl⟩

/-! ## What a call returns -/

section
variable {x : Pool} {session : Session} {tokenId : List Char} {resource : List UInt8} {ttl : Int}

theorem acquire_free (h : x.locks.lookup (hashKey resource) = none) :
    x.acquire session tokenId resource ttl = (.ok ⟨resource, tokenId, hashKey resource, ttl⟩,
      x.locks.insert (hashKey resource) ⟨session, 1, Nat.one_pos⟩) := by
  have hexec : exec session (.tryAdvisoryLock (hashKey resource)) x.locks =
      (.ok true, x.locks.insert (hashKey resource) ⟨session, 1, Nat.one_pos⟩) := by
    rw [exec, Locks.tryLock, h]
  exact Proc.eval_call hexec

theorem acquire_held (hk : x.locks.lookup (hashKey resource) = some h)
    (hnot : ¬ x.locks.Holds session (hashKey resource)) :
    x.acquire session tokenId resource ttl = (.error .held, x.locks) := by
  have hexec : exec session (.tryAdvisoryLock (hashKey resource)) x.locks =
      (.ok false, x.locks) := by
    rw [exec, Locks.tryLock_held hk hnot]
  exact Proc.eval_call hexec

theorem release_once (hk : x.locks.lookup token.lockID = some h) (hd : h.depth = 1)
    (hold : x.locks.Holds session token.lockID) :
    x.release session token = (.ok (), x.locks.erase token.lockID) := by
  have hexec : exec session (.advisoryUnlock token.lockID) x.locks =
      (.ok true, x.locks.erase token.lockID) := by
    rw [exec, Locks.unlock_once hk hold hd]
  exact Proc.eval_call hexec

theorem release_not_held (hnot : ¬ x.locks.Holds session token.lockID) :
    x.release session token = (.error .expired, x.locks) := by
  have hexec : exec session (.advisoryUnlock token.lockID) x.locks = (.ok false, x.locks) := by
    rw [exec, Locks.unlock_not_held hnot]
  exact Proc.eval_call hexec

end

/-! ## Locks and outstanding tokens -/

/-- Every lock is held once and for an outstanding token, every outstanding token has the lock of
its resource, and no two have the same. -/
structure Orderly (x : Pool) : Prop where
  held : ∀ k h, x.locks.lookup k = some h → h.depth = 1 ∧ ∃ t ∈ x.outstanding, t.lockID = k
  keyed : ∀ t ∈ x.outstanding, t.lockID = hashKey t.resource ∧
    ∃ h, x.locks.lookup t.lockID = some h
  one : ∀ t ∈ x.outstanding, ∀ t' ∈ x.outstanding, t.lockID = t'.lockID → t = t'

namespace Orderly

variable {x x' : Pool} {session : Session}

theorem congr (h : Orderly x) (hlocks : ∀ k, x'.locks.lookup k = x.locks.lookup k)
    (hout : x'.outstanding = x.outstanding) : Orderly x' where
  held k hold hk := by
    rw [hlocks] at hk
    rw [hout]
    exact h.held k hold hk
  keyed t ht := by
    rw [hout] at ht
    rw [hlocks]
    exact h.keyed t ht
  one := by
    rw [hout]
    exact h.one

/-- A free lock goes to a new token. -/
theorem acquired (h : Orderly x) (token : PostgresToken)
    (hkey : token.lockID = hashKey token.resource) (hfree : x.locks.lookup token.lockID = none) :
    Orderly ⟨x.locks.insert token.lockID ⟨session, 1, Nat.one_pos⟩, busy,
      token :: x.outstanding⟩ := by
  have hother : ∀ t ∈ x.outstanding, t.lockID ≠ token.lockID := by
    intro t ht heq
    obtain ⟨hold, hk⟩ := (h.keyed t ht).2
    rw [heq, hfree] at hk
    cases hk
  refine ⟨fun k hold hk => ?_, fun t ht => ?_, fun t ht t' ht' heq => ?_⟩
  · rw [Table.lookup_insert_eq] at hk
    split at hk
    · next hsame =>
      cases hk
      exact ⟨rfl, token, List.mem_cons_self, hsame.symm⟩
    · obtain ⟨hd, t, ht, htk⟩ := h.held k hold hk
      exact ⟨hd, t, List.mem_cons_of_mem token ht, htk⟩
  · rcases List.mem_cons.1 ht with rfl | hold
    · exact ⟨hkey, _, by rw [Table.lookup_insert_eq, if_pos rfl]⟩
    · rw [Table.lookup_insert_eq, if_neg (hother t hold)]
      exact h.keyed t hold
  · rcases List.mem_cons.1 ht with rfl | hold
    · rcases List.mem_cons.1 ht' with rfl | hold'
      · rfl
      · exact absurd heq.symm (hother t' hold')
    · rcases List.mem_cons.1 ht' with rfl | hold'
      · exact absurd heq (hother t hold)
      · exact h.one t hold t' hold' heq

/-- The lock of an outstanding token is given back. -/
theorem released (h : Orderly x) (hout : token ∈ x.outstanding) :
    Orderly ⟨x.locks.erase token.lockID, busy, x.outstanding.filter fun t => t ≠ token⟩ := by
  have hkept : ∀ {t}, t ∈ x.outstanding.filter (fun t => decide (t ≠ token)) →
      t ∈ x.outstanding ∧ t ≠ token := by
    intro t ht
    obtain ⟨hmem, hne⟩ := List.mem_filter.1 ht
    exact ⟨hmem, of_decide_eq_true hne⟩
  refine ⟨fun k hold hk => ?_, fun t ht => ?_, fun t ht t' ht' => ?_⟩
  · rw [Table.lookup_erase_eq] at hk
    split at hk
    · cases hk
    · next hne =>
      obtain ⟨hd, t, ht, rfl⟩ := h.held k hold hk
      refine ⟨hd, t, List.mem_filter.2 ⟨ht, decide_eq_true ?_⟩, rfl⟩
      rintro rfl
      exact hne rfl
  · obtain ⟨hmem, hne⟩ := hkept ht
    have hkey : t.lockID ≠ token.lockID := fun heq => hne (h.one t hmem token hout heq)
    rw [Table.lookup_erase_eq, if_neg hkey]
    exact h.keyed t hmem
  · exact h.one t (hkept ht).1 t' (hkept ht').1

/-- An `Acquire` on a session that does not have the lock. -/
theorem acquire (h : Orderly x) (hnot : ¬ x.locks.Holds session (hashKey resource))
    (hstep : x.serve session (.acquire tokenId resource ttl) = some x') : Orderly x' := by
  rw [Pool.serve] at hstep
  split at hstep
  · cases hstep
  · cases hk : x.locks.lookup (hashKey resource) with
    | none =>
      rw [acquire_free hk] at hstep
      cases hstep
      exact h.acquired ⟨resource, tokenId, hashKey resource, ttl⟩ rfl hk
    | some hold =>
      rw [acquire_held hk hnot] at hstep
      cases hstep
      exact h.congr (fun _ => rfl) rfl

/-- A `Release` on the session that has the lock, or of a token that is not outstanding on one that
does not. -/
theorem release (h : Orderly x) (hown : x.locks.Holds session token.lockID ↔ token ∈ x.outstanding)
    (hstep : x.serve session (.release token) = some x') : Orderly x' := by
  rw [Pool.serve] at hstep
  by_cases hout : token ∈ x.outstanding
  · obtain ⟨hold, hk⟩ := (h.keyed token hout).2
    rw [release_once hk (h.held _ hold hk).1 (hown.2 hout)] at hstep
    cases hstep
    exact h.released hout
  · rw [release_not_held fun hheld => hout (hown.1 hheld)] at hstep
    cases hstep
    exact h.congr (fun _ => rfl) rfl

/-- **One step.** -/
theorem step (h : Orderly x) (hown : x.rightSession a = true) (hstep : x.step a = some x') :
    Orderly x' := by
  cases a with
  | start session request =>
    rw [Pool.step] at hstep
    split at hstep
    · cases hstep
    · cases hstep
      exact h.congr (fun _ => rfl) rfl
  | serve session =>
    obtain ⟨request, hreq, hserve⟩ := Option.bind_eq_some_iff.1 hstep
    rw [Pool.rightSession, hreq] at hown
    cases request with
    | acquire tokenId resource ttl =>
      exact h.acquire (by simpa using hown) hserve
    | release token =>
      exact h.release (by simpa using hown) hserve
  | fail session =>
    rw [Pool.step] at hstep
    split at hstep
    · cases hstep
      exact h.congr (fun _ => rfl) rfl
    · cases hstep
  | close session =>
    rw [Pool.step] at hstep
    split at hstep
    · cases hstep
    · cases hstep
      refine h.congr (fun k' => Locks.lookup_unlockAll.trans (if_neg fun hheld => ?_)) rfl
      obtain ⟨hold, hk, howner⟩ := Option.map_eq_some_iff.1 hheld
      have hne := List.all_eq_true.1 hown ⟨k', hold⟩ (Table.mem_entries.2 hk)
      exact of_decide_eq_true hne howner

theorem disciplined (h : Orderly x) : Disciplined x where
  one t ht t' ht' heq := by
    refine h.one t ht t' ht' ?_
    rw [(h.keyed t ht).1, (h.keyed t' ht').1, heq]
  release session token hreq hout hown := by
    have hheld : x.locks.Holds session token.lockID := by
      rw [Pool.rightSession, hreq] at hown
      simpa [hout] using hown
    obtain ⟨hkey, hold, hk⟩ := h.keyed token hout
    have hrel := release_once hk (h.held _ hold hk).1 hheld
    refine ⟨by rw [hrel], _, by rw [Pool.step, hreq, Option.bind_some, Pool.serve, hrel], ?_⟩
    intro session' tokenId ttl
    rw [acquire_free]
    rw [← hkey, Table.lookup_erase_eq, if_pos rfl]

end Orderly

theorem orderly_init : Orderly .init where
  held _ _ h := nomatch h
  keyed _ h := nomatch h
  one _ h := nomatch h

/-- **Advisory locks exclude each other** as long as the pool picks the right sessions. -/
theorem advisory_disciplined (acts : List Action) (x : Pool)
    (hown : Run.throughout Pool.step Pool.rightSession .init acts = true)
    (hrun : Run.run Pool.step .init acts = some x) : Disciplined x :=
  (Run.run_induction (fun h ho hs => h.step ho hs) orderly_init hown hrun).disciplined

/-- The token of the resource `r` with the id. -/
def tokenOf (id : Char) : PostgresToken := ⟨[114], [id], hashKey [114], 0⟩

/-- Two callers take turns, and the first one calls `Release` twice. -/
def takingTurns : List Action :=
  [.start 0 (.acquire ['a'] [114] 0), .start 1 (.acquire ['b'] [114] 0), .serve 0, .serve 1,
    .start 0 (.release (tokenOf 'a')), .serve 0, .start 1 (.acquire ['c'] [114] 0), .serve 1,
    .start 0 (.release (tokenOf 'a')), .serve 0, .start 1 (.release (tokenOf 'c'))]

theorem advisory_disciplined_takingTurns :
    ∃ x, Run.run Pool.step .init takingTurns = some x ∧ tokenOf 'c' ∈ x.outstanding ∧
      Disciplined x := by
  have hrun : (Run.run Pool.step .init takingTurns).map (·.outstanding) =
      some [tokenOf 'c'] := by
    decide +kernel
  obtain ⟨x, hx, hout⟩ := Option.map_eq_some_iff.1 hrun
  refine ⟨x, hx, hout ▸ List.mem_singleton_self _, ?_⟩
  exact advisory_disciplined takingTurns x (by decide +kernel) hx

/-- One session acquires a resource for two callers. -/
def sameSession : List Action :=
  [.start 0 (.acquire ['a'] [114] 0), .serve 0, .start 0 (.acquire ['b'] [114] 0), .serve 0]

/-- `Release` runs on another session than `Acquire` did. -/
def otherSession : List Action :=
  [.start 0 (.acquire ['a'] [114] 0), .serve 0, .start 1 (.release (tokenOf 'a'))]

/-- **Sessions break the locks**: two callers have the resource, and one cannot give it back. -/
theorem advisory_broken :
    (∃ x, Run.run Pool.step .init sameSession = some x ∧ tokenOf 'a' ∈ x.outstanding ∧
      tokenOf 'b' ∈ x.outstanding ∧ (tokenOf 'a').resource = (tokenOf 'b').resource ∧
      tokenOf 'a' ≠ tokenOf 'b') ∧
    ∃ x, Run.run Pool.step .init otherSession = some x ∧ tokenOf 'a' ∈ x.outstanding ∧
      x.busy.lookup 1 = some (.release (tokenOf 'a')) ∧
      (x.release 1 (tokenOf 'a')).1 = .error .expired ∧
      ∃ x', x.step (.serve 1) = some x' ∧ (x'.acquire 1 ['b'] [114] 0).1 = .error .held := by
  have hsame : (Run.run Pool.step .init sameSession).map (·.outstanding) =
      some [tokenOf 'b', tokenOf 'a'] := by
    decide +kernel
  have hother : (Run.run Pool.step .init otherSession).map (fun x =>
      (x.outstanding, x.busy.lookup 1, (x.release 1 (tokenOf 'a')).1,
        (x.step (.serve 1)).map fun x' => (x'.acquire 1 ['b'] [114] 0).1)) =
      some ([tokenOf 'a'], some (.release (tokenOf 'a')), .error .expired,
        some (.error .held)) := by
    decide +kernel
  obtain ⟨x, hx, hout⟩ := Option.map_eq_some_iff.1 hsame
  obtain ⟨y, hy, hval⟩ := Option.map_eq_some_iff.1 hother
  simp only [Prod.mk.injEq] at hval
  obtain ⟨hout', hreq, hrel, hacq⟩ := hval
  refine ⟨⟨x, hx, ?_, ?_, rfl, by decide⟩, y, hy, ?_, hreq, hrel, Option.map_eq_some_iff.1 hacq⟩
  · rw [hout]
    exact List.mem_cons_of_mem _ List.mem_cons_self
  · rw [hout]
    exact List.mem_cons_self
  · rw [hout']
    exact List.mem_cons_self

end Aegis.Lock.Advisory
