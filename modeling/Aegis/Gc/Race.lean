import Aegis.Gc.Collectors
import Aegis.Ingress.Writes

/-!
# Collectors and commits

The collectors, their tombstone topic and the blob store beside the pool of transactions that
commit files and write blocks, in any interleaving of single database statements, blob-store calls
and queue operations. A check of `ref_count` and the deletion it is meant for are separate steps,
and the consumer of tombstones does not check at all: a commit in between takes a reference to a
block whose blob is about to go. A block is doomed from the check that finds it unreferenced until
the collector gives up on it and its tombstone is consumed; blobs are deleted with a count of 0 in
every run in which no transaction that refers to a doomed block commits.
-/

namespace Aegis.Gc

open Db Stmt Txn Txn.Prog Ingress

/-! ## What transactions do to unreferenced blocks -/

/-- The hashes that a call can add a reference to. -/
def adds : Call → List Hash
  | .commit (.file a) => a.blocks.map BlockMeta.blockHash
  | .ensureBlock h _ _ _ => [h]
  | _ => []

/-- Blocks outside `S` without references get none. -/
def RefersWithin (S : List Hash) (d d' : Db) : Prop :=
  ∀ h, h ∉ S → d.refCount h ≤ 0 → d'.refCount h ≤ 0

variable {S : List Hash} {h : Hash}

theorem RefersWithin.refl (d : Db) : RefersWithin S d d := fun _ _ hd => hd

theorem RefersWithin.trans (hab : RefersWithin S a b) (hbc : RefersWithin S b c) :
    RefersWithin S a c :=
  fun h hS ha => hbc h hS (hab h hS ha)

/-- A change that leaves the counts of blocks alone. -/
theorem refersWithin_of_eq (heq : ∀ h, d'.refCount? h = d.refCount? h) : RefersWithin S d d' := by
  intro h _ hd
  rwa [refCount, heq]

theorem refersWithin_addRef (hS : h ∈ S) (d : Db) : RefersWithin S d (addRef h d) := by
  intro h' hS' hd
  rw [refCount, refCount?_addRef, if_neg]
  · exact hd
  · intro heq
    exact hS' (heq ▸ hS)

theorem refersWithin_dropRef (d : Db) : RefersWithin S d (dropRef h d) := by
  intro h' _ hd
  rw [refCount] at hd ⊢
  rw [refCount?_dropRef]
  split
  · cases hc : d.refCount? h' with
    | none => simp
    | some c =>
      rw [hc, Option.getD_some] at hd
      simp only [Option.map_some, Option.getD_some]
      omega
  · exact hd

theorem refersWithin_eraseBlock (d : Db) : RefersWithin S d (eraseBlock h d) := by
  intro h' _ hd
  rw [refCount] at hd ⊢
  rw [refCount?_eraseBlock]
  split
  · rfl
  · exact hd

theorem refersWithin_insertBlock (hr : h ∈ S ∨ r.refCount ≤ 0) (d : Db) :
    RefersWithin S d (insertBlock h r d) := by
  intro h' hS' hd
  rw [refCount] at hd ⊢
  rw [refCount?_insertBlock]
  split
  · next heq =>
    rcases hr with hS | hr
    · exact absurd (heq ▸ hS) hS'
    · simpa using hr
  · exact hd

/-- A change to tables other than `cas_blocks`. -/
theorem refersWithin_of_blocks_eq (heq : d'.blocks = d.blocks) : RefersWithin S d d' :=
  refersWithin_of_eq fun h => by rw [refCount?, refCount?, heq]

/-- A write of a call adds references only to the hashes the call names. -/
theorem refersWithin_of_writes (f : Db → Db) (hw : c.Writes f) (d : Db) :
    RefersWithin (adds c) d (f d) := by
  cases hw with
  | skip => exact RefersWithin.refl d
  | fileVersion n k size => exact refersWithin_of_blocks_eq rfl
  | fileBlock hb => exact refersWithin_insertBlock (.inr le_rfl) d
  | fileManifest hb => exact refersWithin_of_blocks_eq rfl
  | fileRef hb => exact refersWithin_addRef (List.mem_map_of_mem hb) d
  | fileSession => exact refersWithin_of_blocks_eq rfl
  | version k => exact refersWithin_of_blocks_eq rfl
  | eraseVersion v => exact refersWithin_of_blocks_eq rfl
  | eraseManifest v i => exact refersWithin_of_blocks_eq rfl
  | dropRef v h => exact refersWithin_dropRef d
  | ensure h t size now => exact refersWithin_insertBlock (.inl (List.mem_singleton_self h)) d
  | eraseBlock hh => exact refersWithin_eraseBlock d
  | sweepBlock hh => exact refersWithin_eraseBlock d
  | retier h => exact refersWithin_of_eq fun _ => refCount?_retier _ _ _

end Aegis.Gc

namespace Aegis.Db

/-- The query for orphans: unreferenced rows created before `cutoff`, the oldest first. -/
def orphans (d : Db) (cutoff : Time) (limit : Int) : List Gc.BlockInfo :=
  let rows := d.blocks.entries.filter fun e => e.2.refCount == 0 && decide (e.2.createdAt < cutoff)
  ((rows.insertionSort fun a b => a.2.createdAt ≤ b.2.createdAt).take limit.toNat).map fun e =>
    ⟨e.1, e.2.tenantId, e.2.sizeBytes⟩

/-- The query takes rows without references from before the cutoff. -/
theorem mem_orphans {d : Db} (hm : h ∈ (d.orphans cutoff limit).map Gc.BlockInfo.blockHash) :
    ∃ e ∈ d.blocks.entries, e.1 = h ∧ e.2.refCount = 0 ∧ e.2.createdAt < cutoff := by
  obtain ⟨b, hb, rfl⟩ := List.mem_map.1 hm
  obtain ⟨e, he, rfl⟩ := List.mem_map.1 hb
  obtain ⟨hrow, hcond⟩ := List.mem_filter.1 ((List.mem_insertionSort _).1 (List.mem_of_mem_take he))
  simp only [Bool.and_eq_true, beq_iff_eq, decide_eq_true_eq] at hcond
  exact ⟨e, hrow, rfl, hcond.1, hcond.2⟩

theorem refCount_of_mem_orphans {d : Db}
    (hm : h ∈ (d.orphans cutoff limit).map Gc.BlockInfo.blockHash) : d.refCount h = 0 := by
  obtain ⟨⟨h, r⟩, hrow, rfl, hzero, -⟩ := mem_orphans hm
  rw [refCount, refCount?, Table.mem_entries.1 hrow, Option.map_some, Option.getD_some]
  exact hzero

end Aegis.Db

namespace Aegis.Gc

open Db Txn Ingress Discipline

/-! ## The system -/

/-- How the environment answers a call: it succeeds (a query then reads the database clock), or it
reports an error and may have taken effect all the same. -/
inductive Outcome
  | ok (now : Time)
  | error (applied : Bool) (text : String)

def Outcome.isOk : Outcome → Bool
  | .ok _ => true
  | .error _ _ => false

/-- The call has its effect. -/
def Outcome.applied : Outcome → Bool
  | .ok _ => true
  | .error applied _ => applied

/-- A collector at work: it runs, or it waits for the transaction that deletes its rows. -/
inductive Process
  | running (p : Collector Unit)
  | deleting (tx : Nat) (hashes : List Hash) (next : Option Nat → Collector Unit)

/-- What a process has still to do. -/
def Process.prog : Process → Collector Unit
  | .running p => p
  | .deleting _ hashes next => .call (.deleteBlocks hashes) next

/-- The pool of transactions, the collectors, the tombstone topic with the positions its consumer
has committed, and the blobs deleted so far, each with the reference count that was committed at
that moment. -/
structure State where
  pool : Sys Db DbLock Err Call Res
  procs : List Process
  topic : List TombstoneEvent
  acked : List Nat
  deletions : List (Hash × Int)

/-- Nothing has happened yet. -/
def State.init (d : Db) : State := ⟨Sys.init d, [], [], [], []⟩

/-- The committed database. -/
def State.db (s : State) : Db := s.pool.world.db

/-- The collectors that can be started; a consumer starts with a message it has read. -/
inductive Job
  | sweep (batchSize : Int) (hasBlobDeleter : Bool)
  | sweepOrphanedBlocks (gc : GarbageCollector) (now : Time) (r : RateLimiter)
  | runLeaderSweep (gc : GarbageCollector) (hasElector hasPublisher : Bool)
  | processMessage (dryRun : Bool) (offset : Nat)

/-- The program of a job, if it can start: messages are read until they are committed. -/
def Job.prog (s : State) : Job → Option (Collector Unit)
  | .sweep batchSize hasBlobDeleter => some (Gc.sweep batchSize hasBlobDeleter)
  | .sweepOrphanedBlocks gc now r => some (do let _ ← gc.sweepOrphanedBlocks now r)
  | .runLeaderSweep gc hasElector hasPublisher => some (do
    let _ ← Gc.runLeaderSweep gc hasElector hasPublisher)
  | .processMessage dryRun offset =>
    if offset ∈ s.acked then none
    else (s.topic[offset]?).map fun e => Gc.processMessage dryRun ⟨offset, some e⟩

/-- What can happen: a step of a transaction, the start of a collector, a call of one with its
outcome, or the end of one. -/
inductive Act
  | txn (a : Action Call)
  | launch (j : Job)
  | advance (i : Nat) (o : Outcome)
  | crash (i : Nat)

/-- The answer to a call. The deletion of rows is answered by its transaction instead. -/
def reply (d : Db) (o : Outcome) : (c : Cmd) → Answer c
  | .isLeader => o.isOk
  | .findOrphans windowSeconds limit =>
    match o with
    | .ok now => some (d.orphans (now - windowSeconds * 10 ^ 9) limit)
    | .error _ _ => none
  | .doubleCheck h => if o.isOk then some (d.refCount? h == some 0) else none
  | .acquire resource _ => if o.isOk then some resource else none
  | .release _ => ()
  | .publish _ _ => o.isOk
  | .deleteBlob _ =>
    match o with
    | .ok _ => none
    | .error _ text => some text
  | .deleteBlocks _ => none
  | .commitMessage _ => ()
  | .audit _ => ()

/-- The effect of a call on the topic and the blob store. -/
def State.effect (s : State) : Cmd → State
  | .publish _ e => { s with topic := s.topic ++ [e] }
  | .deleteBlob h => { s with deletions := s.deletions ++ [(h, s.db.refCount h)] }
  | .commitMessage m => { s with acked := m.offset :: s.acked }
  | _ => s

def State.put (s : State) (i : Nat) (q : Process) : State := { s with procs := s.procs.set i q }

/-- One call of a collector. -/
def State.advance (s : State) (i : Nat) (o : Outcome) : Option State :=
  match s.procs[i]? with
  | some (.running (.call (.deleteBlocks hashes) next)) =>
    (s.pool.step Call.body (.start (.deleteBlocks hashes))).map fun pool =>
      { s with pool := pool }.put i (.deleting s.pool.txns.length hashes next)
  | some (.running (.call c next)) =>
    let s' := if o.applied then s.effect c else s
    some (s'.put i (.running (next (reply s.db o c))))
  | some (.deleting tx _ next) =>
    match (s.pool.txns[tx]?).map Tx.phase with
    | some (.committed (.deleted n)) =>
      some (s.put i (.running (next (if o.isOk then some n else none))))
    | some (.failed _) => some (s.put i (.running (next none)))
    | some .aborted => some (s.put i (.running (next none)))
    | _ => none
  | _ => none

/-- One action, if it is possible. -/
def State.step (s : State) : Act → Option State
  | .txn a => (s.pool.step Call.body a).map fun pool => { s with pool := pool }
  | .launch j => (j.prog s).map fun p => { s with procs := s.procs ++ [.running p] }
  | .advance i o => s.advance i o
  | .crash i => some (s.put i (.running (.ret ())))

/-- A whole run. -/
abbrev State.run : State → List Act → Option State := Run.run State.step

/-! ## What an action does -/

/-- The actions that are possible, and the states they lead to. -/
inductive Moves (s : State) : Act → State → Prop
  | txn {a : Action Call} {pool : Sys Db DbLock Err Call Res} :
      Sys.Does Call.body s.pool a pool → Moves s (.txn a) { s with pool := pool }
  | launch {j : Job} {p : Collector Unit} : j.prog s = some p →
      Moves s (.launch j) { s with procs := s.procs ++ [.running p] }
  | delete {i : Nat} {o : Outcome} {hashes : List Hash} {next : Option Nat → Collector Unit}
      {pool : Sys Db DbLock Err Call Res} :
      s.procs[i]? = some (.running (.call (.deleteBlocks hashes) next)) →
      Sys.Does Call.body s.pool (.start (.deleteBlocks hashes)) pool →
      Moves s (.advance i o)
        ({ s with pool := pool }.put i (.deleting s.pool.txns.length hashes next))
  | call {i : Nat} {o : Outcome} {c : Cmd} {next : Answer c → Collector Unit} :
      s.procs[i]? = some (.running (.call c next)) →
      Moves s (.advance i o)
        ((if o.applied then s.effect c else s).put i (.running (next (reply s.db o c))))
  | answer {i : Nat} {o : Outcome} {tx : Nat} {hashes : List Hash}
      {next : Option Nat → Collector Unit} (a : Option Nat) :
      s.procs[i]? = some (.deleting tx hashes next) →
      Moves s (.advance i o) (s.put i (.running (next a)))
  | crash (i : Nat) : Moves s (.crash i) (s.put i (.running (.ret ())))

variable {s s' : State} {h : Hash}

/-- An action that is taken does one of these. -/
theorem moves_of_step (hstep : s.step a = some s') : Moves s a s' := by
  cases a with
  | txn a =>
    obtain ⟨pool, hpool, rfl⟩ := Option.map_eq_some_iff.1 hstep
    exact .txn (Sys.does_of_step hpool)
  | launch j =>
    obtain ⟨p, hp, rfl⟩ := Option.map_eq_some_iff.1 hstep
    exact .launch hp
  | advance i o =>
    rw [State.step, State.advance] at hstep
    split at hstep
    · next hashes next hi =>
      obtain ⟨pool, hpool, rfl⟩ := Option.map_eq_some_iff.1 hstep
      exact .delete hi (Sys.does_of_step hpool)
    · next c next _ hi =>
      cases hstep
      exact .call hi
    · next tx hashes next hi =>
      split at hstep
      · cases hstep
        exact .answer _ hi
      · cases hstep
        exact .answer _ hi
      · cases hstep
        exact .answer _ hi
      · cases hstep
    · cases hstep
  | crash i =>
    cases hstep
    exact .crash i

theorem procs_effect (s : State) (c : Cmd) : (s.effect c).procs = s.procs := by
  cases c <;> rfl

/-- Transactions are moved by their own actions, and a deletion of rows starts one. -/
theorem Moves.does (hm : Moves s a s') : s'.pool = s.pool ∨
    (∃ b, a = .txn b ∧ Sys.Does Call.body s.pool b s'.pool) ∨
      ∃ hashes, Sys.Does Call.body s.pool (.start (.deleteBlocks hashes)) s'.pool ∧
        ∃ q ∈ s.procs, ∃ next, q.prog = .call (.deleteBlocks hashes) next := by
  cases hm with
  | txn hd => exact .inr (.inl ⟨_, rfl, hd⟩)
  | launch hp => exact .inl rfl
  | delete hi hd => exact .inr (.inr ⟨_, hd, _, List.mem_of_getElem? hi, _, rfl⟩)
  | @call i o c next hi =>
    refine .inl ?_
    show (if o.applied then s.effect c else s).pool = s.pool
    split
    · cases c <;> rfl
    · rfl
  | answer a hi => exact .inl rfl
  | crash i => exact .inl rfl

/-- The tables change only when a transaction that has returned commits. -/
theorem Moves.db_eq (hm : Moves s a s') : s'.db = s.db ∨ ∃ i c held eff r,
    a = .txn (.commit i) ∧ s.pool.txns[i]? = some ⟨c, held, eff, .running (.ret r)⟩ ∧
      s'.db = eff s.db := by
  rcases hm.does with hpool | ⟨b, rfl, hd⟩ | ⟨hashes, hd, -⟩
  · exact .inl (by rw [State.db, State.db, hpool])
  · rcases hd.db_eq with heq | ⟨i, c, held, eff, r, rfl, hi, heq⟩
    · exact .inl heq
    · exact .inr ⟨i, c, held, eff, r, rfl, hi, heq⟩
  · rcases hd.db_eq with heq | ⟨i, c, held, eff, r, hstart, -⟩
    · exact .inl heq
    · cases hstart

/-- What transactions write stays within bounds. -/
theorem Moves.bounded (hrefl : ∀ c d, R c d d) (htrans : ∀ {c a b d}, R c a b → R c b d → R c a d)
    (hbody : ∀ c : Call, c.body.Within (R c)) (hb : Sys.Bounded R s.pool) (hm : Moves s a s') :
    Sys.Bounded R s'.pool := by
  rcases hm.does with hpool | ⟨b, -, hd⟩ | ⟨hashes, hd, -⟩
  · exact hpool ▸ hb
  · exact hb.does hrefl htrans hbody hd
  · exact hb.does hrefl htrans hbody hd

/-- A pool that is good for a protocol without marks stays good, if what is started is verified. -/
theorem Moves.good {P : Protocol Db DbLock Err Call Res}
    (hbody : ∀ c : Call, a = .txn (.start c) ∨ (∃ hashes, c = .deleteBlocks hashes) →
      ∀ w : World Db Call Res, P.Inv w → P.wp c.body (P.Commits c) [] id w)
    (hmark : ∀ l, ¬ P.Mark l) (hg : P.Good s.pool) (hm : Moves s a s') : P.Good s'.pool := by
  rcases hm.does with hpool | ⟨b, rfl, hd⟩ | ⟨hashes, hd, -⟩
  · exact hpool ▸ hg
  · exact hg.does (fun c hc => hbody c (.inl (by rw [hc]))) (.inl hmark) hd
  · exact hg.does (fun c hc => hbody c (.inr ⟨hashes, (Action.start.inj hc).symm⟩)) (.inl hmark) hd

/-! ## Marked blocks -/

/-- A tombstone of the block waits for the consumer. -/
def Pending (s : State) (h : Hash) : Prop :=
  ∃ (i : Nat) (e : TombstoneEvent), s.topic[i]? = some e ∧ i ∉ s.acked ∧ e.blockHash = h

/-- A consumer starts with a tombstone that waits. -/
theorem prog_processMessage (hp : (Job.processMessage dryRun offset).prog s = some p) :
    ∃ e, Pending s e.blockHash ∧ p = Gc.processMessage dryRun ⟨offset, some e⟩ := by
  rw [Job.prog] at hp
  split at hp
  · cases hp
  · next hacked =>
    obtain ⟨e, he, rfl⟩ := Option.map_eq_some_iff.1 hp
    exact ⟨e, ⟨offset, e, he, hacked, rfl⟩, rfl⟩

/-- A tombstone of the block waits, or a collector can act on it before it checks again. -/
def Marked (D : Discipline Cmd Answer Hash) (s : State) (h : Hash) : Prop :=
  Pending s h ∨ ∃ q ∈ s.procs, D.Armed h q.prog

/-- The action is a check whose answer confirms the block. -/
def Confirms (D : Discipline Cmd Answer Hash) (s : State) (h : Hash) : Act → Prop
  | .advance i o => ∃ (c : Cmd) (next : Answer c → Collector Unit),
    s.procs[i]? = some (.running (.call c next)) ∧ D.asks c ∧ D.confirms c (reply s.db o c) h
  | _ => False

/-- A discipline that the collectors follow: publishing a tombstone and deleting a blob are acts,
deleting rows is no check, and a new collector acts on what is pending or checks first. -/
structure Followed (D : Discipline Cmd Answer Hash) : Prop where
  publish : ∀ topic e, D.acts (.publish topic e) e.blockHash
  deleteBlob : ∀ h, D.acts (.deleteBlob h) h
  deleteBlocks : ∀ hashes, ¬ D.asks (.deleteBlocks hashes)
  launch : ∀ {s : State} {j : Job} {p : Collector Unit}, j.prog s = some p →
    D.Guarded p ∧ ∀ h, D.Armed h p → Pending s h

variable {D : Discipline Cmd Answer Hash}

/-- Sweeps that check first, and a consumer that keeps to its message. -/
theorem launch_of_careful (hsweep : ∀ {batchSize b}, D.Careful (sweep batchSize b))
    (horphaned : ∀ {gc : GarbageCollector} {now r}, D.Careful (gc.sweepOrphanedBlocks now r))
    (hleader : ∀ {gc hasElector hasPublisher},
      D.Careful (runLeaderSweep gc hasElector hasPublisher))
    (hconsumer : ∀ {dryRun} {m : TombstoneMessage},
      D.Confined (fun h => ∃ e, m.value = some e ∧ e.blockHash = h) (processMessage dryRun m))
    {j : Job} (hp : j.prog s = some p) : D.Guarded p ∧ ∀ h, D.Armed h p → Pending s h := by
  have hcareful : ∀ {q : Collector Unit}, D.Careful q →
      D.Guarded q ∧ ∀ h, D.Armed h q → Pending s h :=
    fun hq => ⟨hq.guarded, fun h harmed => absurd harmed (hq.unarmed h)⟩
  cases j with
  | sweep batchSize b =>
    cases hp
    exact hcareful hsweep
  | sweepOrphanedBlocks gc now r =>
    cases hp
    exact hcareful (horphaned.bind fun _ => Careful.ret)
  | runLeaderSweep gc hasElector hasPublisher =>
    cases hp
    exact hcareful (hleader.bind fun _ => Careful.ret)
  | processMessage dryRun offset =>
    obtain ⟨e, hpending, rfl⟩ := prog_processMessage hp
    refine ⟨hconsumer.guarded, fun h harmed => ?_⟩
    obtain ⟨e', he', rfl⟩ := hconsumer.armed harmed
    cases he'
    exact hpending

theorem marked_put (hm : Marked D (s.put i q) h) : Marked D s h ∨ D.Armed h q.prog := by
  rcases hm with hp | ⟨q', hq', harmed⟩
  · exact .inl (.inl hp)
  · rcases List.mem_or_eq_of_mem_set hq' with hq' | rfl
    · exact .inl (.inr ⟨q', hq', harmed⟩)
    · exact .inr harmed

/-- A call leaves a tombstone pending only if it publishes it. -/
theorem pending_effect (hp : Pending (s.effect c) h) :
    Pending s h ∨ ∃ topic e, c = .publish topic e ∧ e.blockHash = h := by
  obtain ⟨i, e', hi, hacked, he'⟩ := hp
  cases c with
  | publish topic e =>
    rcases Nat.lt_or_ge i s.topic.length with hlt | hge
    · exact .inl ⟨i, e', by rwa [← List.getElem?_append_left hlt], hacked, he'⟩
    · obtain rfl : e = e' := by
        have hlast : (s.topic ++ [e])[i]? = some e' := hi
        rw [List.getElem?_append_right hge, List.getElem?_singleton] at hlast
        split at hlast
        · exact Option.some.inj hlast
        · cases hlast
      exact .inr ⟨topic, e, rfl, he'⟩
  | commitMessage m =>
    exact .inl ⟨i, e', hi, fun hmem => hacked (List.mem_cons_of_mem _ hmem), he'⟩
  | _ => exact .inl ⟨i, e', hi, hacked, he'⟩

theorem marked_effect (hD : Followed D) (hm : Marked D (s.effect c) h) :
    Marked D s h ∨ D.acts c h := by
  rcases hm with hp | ⟨q, hq, harmed⟩
  · rcases pending_effect hp with hp | ⟨topic, e, rfl, rfl⟩
    · exact .inl (.inl hp)
    · exact .inr (hD.publish topic e)
  · exact .inl (.inr ⟨q, procs_effect s c ▸ hq, harmed⟩)

/-- Collectors stay guarded. -/
theorem Moves.guarded (hD : Followed D) (hg : ∀ q ∈ s.procs, D.Guarded q.prog) (hm : Moves s a s') :
    ∀ q ∈ s'.procs, D.Guarded q.prog := by
  have hset : ∀ {i : Nat} {q : Process}, D.Guarded q.prog →
      ∀ q' ∈ s.procs.set i q, D.Guarded q'.prog := by
    intro i q hq q' hq'
    rcases List.mem_or_eq_of_mem_set hq' with hq' | rfl
    · exact hg q' hq'
    · exact hq
  cases hm with
  | txn hd => exact hg
  | launch hp =>
    intro q hq
    rcases List.mem_append.1 hq with hq | hq
    · exact hg q hq
    · obtain rfl := List.mem_singleton.1 hq
      exact (hD.launch hp).1
  | delete hi hd =>
    have hq := hg _ (List.mem_of_getElem? hi)
    exact hset (q := .deleting _ _ _) hq
  | @call i o c next hi =>
    have hprocs : (if o.applied then s.effect c else s).procs = s.procs := by
      split
      · exact procs_effect s c
      · rfl
    rw [State.put, hprocs]
    exact hset (hg _ (List.mem_of_getElem? hi) _).1
  | answer a hi => exact hset (hg _ (List.mem_of_getElem? hi) a).1
  | crash i => exact hset trivial

/-- **A block becomes marked by a check that confirms it**, and in no other way. -/
theorem Moves.marked (hD : Followed D) (hg : ∀ q ∈ s.procs, D.Guarded q.prog) (hm : Moves s a s')
    (hmark : Marked D s' h) : Marked D s h ∨ Confirms D s h a := by
  cases hm with
  | txn hd => exact .inl hmark
  | launch hp =>
    rcases hmark with hp' | ⟨q, hq, harmed⟩
    · exact .inl (.inl hp')
    · rcases List.mem_append.1 hq with hq | hq
      · exact .inl (.inr ⟨q, hq, harmed⟩)
      · obtain rfl := List.mem_singleton.1 hq
        exact .inl (.inl ((hD.launch hp).2 h harmed))
  | delete hi hd =>
    rcases marked_put hmark with hmark | harmed
    · exact .inl hmark
    · exact .inl (.inr ⟨_, List.mem_of_getElem? hi, harmed⟩)
  | @call i o c next hi =>
    have hq := List.mem_of_getElem? hi
    rcases marked_put hmark with hmark | harmed
    · split at hmark
      · rcases marked_effect hD hmark with hmark | hact
        · exact .inl hmark
        · exact .inl (.inr ⟨_, hq, .now hact⟩)
      · exact .inl hmark
    · by_cases hask : D.asks c
      · exact .inr ⟨c, next, hi, hask, (hg _ hq _).2 hask h harmed⟩
      · exact .inl (.inr ⟨_, hq, .later _ hask harmed⟩)
  | @answer i o tx hashes next a hi =>
    rcases marked_put hmark with hmark | harmed
    · exact .inl hmark
    · exact .inl (.inr ⟨_, List.mem_of_getElem? hi, .later a (hD.deleteBlocks hashes) harmed⟩)
  | crash i =>
    rcases marked_put hmark with hmark | harmed
    · exact .inl hmark
    · exact absurd harmed armed_ret

/-- Only marked blobs are deleted. -/
theorem Moves.deletions (hD : Followed D) (hm : Moves s a s') :
    s'.deletions = s.deletions ∨
      ∃ h, Marked D s h ∧ s'.deletions = s.deletions ++ [(h, s.db.refCount h)] := by
  cases hm with
  | @call i o c next hi =>
    show (if o.applied then s.effect c else s).deletions = _ ∨
      ∃ h, Marked D s h ∧ (if o.applied then s.effect c else s).deletions = _
    split
    · cases c with
      | deleteBlob h =>
        exact .inr ⟨h, .inr ⟨_, List.mem_of_getElem? hi, .now (hD.deleteBlob h)⟩, rfl⟩
      | _ => exact .inl rfl
    · exact .inl rfl
  | _ => exact .inl rfl

/-! ## Doomed blocks -/

/-- The blob of `h` may go without another look at its references: a tombstone of it waits for the
consumer, or a collector has checked it and can act on it. -/
abbrev Doomed : State → Hash → Prop := Marked checks

/-- The action does not commit a transaction that refers to a doomed block. -/
def Apart (s : State) : Act → Prop
  | .txn (.commit i) => ∀ t, s.pool.txns[i]? = some t → ∀ h ∈ adds t.call, ¬ Doomed s h
  | _ => True

/-- **The invariant**: what is doomed is not referenced. -/
structure Safe (s : State) : Prop where
  bounded : Sys.Bounded (fun c => RefersWithin (adds c)) s.pool
  guarded : ∀ q ∈ s.procs, checks.Guarded q.prog
  doomed : ∀ h, Doomed s h → s.db.refCount h ≤ 0
  deletions : ∀ x ∈ s.deletions, x.2 ≤ 0

theorem safe_init (d : Db) : Safe (State.init d) where
  bounded := Sys.bounded_init d
  guarded := by simp [State.init]
  doomed := by
    intro h hd
    rcases hd with ⟨i, e, hi, -⟩ | ⟨q, hq, -⟩
    · simp [State.init] at hi
    · simp [State.init] at hq
  deletions := by simp [State.init]

/-- What a check confirms is unreferenced at that moment. -/
theorem refCount_of_confirms (hc : Confirms checks s h a) :
    ∃ i o, a = .advance i o ∧ s.db.refCount h ≤ 0 := by
  cases a with
  | advance i o =>
    refine ⟨i, o, rfl, ?_⟩
    obtain ⟨c, next, -, hask, hk⟩ := hc
    cases c with
    | findOrphans w l =>
      obtain ⟨bs, hbs, hmem⟩ := hk
      cases o with
      | ok now =>
        cases hbs
        exact (refCount_of_mem_orphans hmem).le
      | error applied text => cases hbs
    | doubleCheck h' =>
      obtain ⟨hreply, rfl⟩ := hk
      cases o with
      | ok now =>
        have hzero : (s.db.refCount? h' == some 0) = true := Option.some.inj hreply
        rw [refCount, beq_iff_eq.1 hzero, Option.getD_some]
      | error applied text => cases hreply
    | _ => exact hask.elim
  | _ => exact hc.elim

/-! ## Steps -/

/-- The collectors follow the checks. -/
theorem checks_followed : Followed checks where
  publish _ _ := rfl
  deleteBlob _ := rfl
  deleteBlocks _ := id
  launch := launch_of_careful sweep_careful sweepOrphanedBlocks_careful runLeaderSweep_careful
    (confined_checks processMessage_confined)

/-- **One action** keeps the invariant, if it does not commit a reference to a doomed block. -/
theorem Safe.step (hs : Safe s) (hap : Apart s a) (hstep : s.step a = some s') : Safe s' := by
  have hm := moves_of_step hstep
  refine ⟨hm.bounded (fun _ => RefersWithin.refl) RefersWithin.trans
      (fun _ => Call.body_within_of_writes refersWithin_of_writes) hs.bounded,
    hm.guarded checks_followed hs.guarded, fun h hd => ?_, fun x hx => ?_⟩
  · -- a check leaves the tables alone, and a commit does not refer to what was doomed before
    rcases hm.marked checks_followed hs.guarded hd with hd | hc
    · have hle := hs.doomed h hd
      rcases hm.db_eq with heq | ⟨i, c, held, eff, r, rfl, hi, heq⟩
      · rwa [heq]
      · rw [heq]
        exact (hs.bounded i _ hi).1 _ h (fun hmem => hap _ hi h hmem hd) hle
    · obtain ⟨i, o, rfl, hle⟩ := refCount_of_confirms hc
      rcases hm.db_eq with heq | ⟨i, c, held, eff, r, hcommit, -⟩
      · rwa [heq]
      · cases hcommit
  · rcases hm.deletions checks_followed with heq | ⟨h, hmark, heq⟩
    · exact hs.deletions x (heq ▸ hx)
    · rw [heq] at hx
      rcases List.mem_append.1 hx with hx | hx
      · exact hs.deletions x hx
      · obtain rfl := List.mem_singleton.1 hx
        exact hs.doomed h hmark

/-! ## Taking turns -/

/-- No collector is at work and no tombstone waits. -/
def State.idle (s : State) : Bool :=
  (s.procs.all fun q => match q with
    | .running (.ret _) => true
    | _ => false) &&
  s.topic.zipIdx.all fun x => s.acked.contains x.2

/-- The action commits no transaction that adds references. -/
def addsNothing (s : State) : Act → Bool
  | .txn (.commit i) => (s.pool.txns[i]?).all fun t => (adds t.call).isEmpty
  | _ => true

/-- References are committed only while the collectors are idle. -/
def takesTurn (s : State) (a : Act) : Bool := s.idle || addsNothing s a

theorem not_marked_of_idle (hs : s.idle = true) : ¬ Marked D s h := by
  obtain ⟨hprocs, htopic⟩ := Bool.and_eq_true_iff.1 hs
  intro hd
  rcases hd with ⟨i, e, hi, hacked, -⟩ | ⟨q, hq, harmed⟩
  · have hmem := List.all_eq_true.1 htopic (e, i) (List.mem_zipIdx_iff_getElem?.2 hi)
    exact hacked (by simpa using hmem)
  · have hdone := List.all_eq_true.1 hprocs q hq
    split at hdone
    · exact absurd harmed armed_ret
    · cases hdone

/-- Collectors and commits that take turns keep apart. -/
theorem apart_of_takesTurn (s : State) (a : Act) (hturn : takesTurn s a = true) : Apart s a := by
  unfold Apart
  split
  · intro t hi h hh
    rcases Bool.or_eq_true_iff.1 hturn with hidle | hnothing
    · exact not_marked_of_idle hidle
    · rw [addsNothing, hi, Option.all_some, List.isEmpty_iff] at hnothing
      rw [hnothing] at hh
      cases hh
  · trivial

/-! ## Safety -/

/-- **No referenced blob is deleted** in a run in which no transaction that refers to a doomed block
commits: whenever the blob of a hash was deleted, its committed reference count was not positive. -/
theorem deletions_unreferenced {d : Db} {acts : List Act}
    (hap : Run.Throughout State.step Apart (State.init d) acts)
    (hrun : (State.init d).run acts = some s) : ∀ h c, (h, c) ∈ s.deletions → ¬ 0 < c := by
  intro h c hmem
  have hsafe : Safe s := hap.run_induction Safe.step (safe_init d) hrun
  have hle : c ≤ 0 := hsafe.deletions (h, c) hmem
  omega

/-- A node with two upload sessions, the second one open for nine days. -/
def twoSessions : Db :=
  Db.seed (AList.singleton 1 ⟨100, 0⟩)
    (AList.singleton 2 ⟨1, none, ['r'], .directory, [Uuid.nodeLabel 2], 0, false⟩)
    ((AList.singleton 3 ⟨1, some 2, .initiated, 4, 1, 0, 50⟩ : Table Uuid SessionRow).insert 4
      ⟨1, some 2, .initiated, 4, 1, 0, 9 * 24 * 3600 * 10 ^ 9⟩)

/-- The eighth day. -/
def dayEight : Time := 8 * 24 * 3600 * 10 ^ 9

/-- The first session commits a file of one block, and its version is deleted again. -/
def commitAndDelete : List Act := List.flatten [
  [.txn (.start (.commit (.file ⟨1, 3, 9, [⟨7, 0, 0, 4⟩], 10, 10, 10⟩)))],
  List.replicate 15 (.txn (.exec 0)), [.txn (.commit 0), .txn (.start (.deleteVersion 10))],
  List.replicate 6 (.txn (.exec 1)), [.txn (.commit 1)]]

/-- The second session commits a file of the same block. -/
def commitAgain : Call := .commit (.file ⟨1, 4, 9, [⟨7, 0, 0, 4⟩], 11, dayEight, dayEight⟩)

/-- The collector with default settings and a blob store. -/
def defaultCollector : GarbageCollector := .new true ⟨0, 0, 0, false⟩

/-- On the eighth day the block is collected and its tombstone consumed; then the second session
commits. -/
def collectThenCommit : List Act := List.flatten [
  commitAndDelete, [.launch (.sweepOrphanedBlocks defaultCollector dayEight ⟨0, 0⟩)],
  List.replicate 7 (.advance 0 (.ok dayEight)), List.replicate 3 (.txn (.exec 2)),
  [.txn (.commit 2), .advance 0 (.ok dayEight), .launch (.processMessage false 0),
    .advance 1 (.ok dayEight), .advance 1 (.ok dayEight), .txn (.exec 3), .txn (.commit 3),
    .advance 1 (.ok dayEight), .advance 1 (.ok dayEight), .txn (.start commitAgain)],
  List.replicate 15 (.txn (.exec 4)), [.txn (.commit 4)]]

theorem deletions_unreferenced_collectThenCommit :
    ∃ s, (State.init twoSessions).run collectThenCommit = some s ∧
      s.deletions = [(7, 0), (7, 0)] ∧ s.db.refCount 7 = 1 ∧
      ∀ h c, (h, c) ∈ s.deletions → ¬ 0 < c := by
  have hrun : ((State.init twoSessions).run collectThenCommit).map
      (fun s => (s.deletions, s.db.refCount 7)) = some ([(7, 0), (7, 0)], 1) := by decide +kernel
  obtain ⟨s, hs, hdeletions, hcount⟩ := exists_of_map_eq_pair hrun
  have hturns : Run.throughout State.step takesTurn (State.init twoSessions) collectThenCommit =
      true := by decide +kernel
  exact ⟨s, hs, hdeletions, hcount,
    deletions_unreferenced (.of_throughout apart_of_takesTurn hturns) hs⟩

/-- The second session commits between the double check and the deletion of the blob. -/
def commitAfterDoubleCheck : List Act := List.flatten [
  commitAndDelete, [.launch (.sweepOrphanedBlocks defaultCollector dayEight ⟨0, 0⟩),
    .advance 0 (.ok dayEight), .advance 0 (.ok dayEight), .txn (.start commitAgain)],
  List.replicate 14 (.txn (.exec 2)), [.txn (.commit 2)],
  List.replicate 3 (.advance 0 (.ok dayEight))]

/-- The blob of a block with a committed reference is deleted. -/
theorem deletion_referenced_commitAfterDoubleCheck :
    ∃ s, (State.init twoSessions).run commitAfterDoubleCheck = some s ∧
      s.deletions = [(7, 1)] := by
  have hrun : ((State.init twoSessions).run commitAfterDoubleCheck).map State.deletions =
      some [(7, 1)] := by decide +kernel
  exact Option.map_eq_some_iff.1 hrun

end Aegis.Gc
