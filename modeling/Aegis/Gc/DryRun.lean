import Aegis.Gc.Race

/-!
# Dry runs

`DryRun` is documented to leave storage alone. `processBatch` and the tombstone consumer look at it
before they publish or delete. `RunLeaderSweep` takes the store, the window and the batch size from
the collector it wraps, and not the flag: as the leader it publishes the tombstones of the blocks
that the query finds, and deletes their rows. So a dry run leaves everything in place as long as
each leader's sweep finds nothing.

A call is answered by the database as it is at that moment, whatever others have made of it, and any
answer may be an error, with or without the effect of the call.
-/

namespace Aegis.Gc

open Proc

/-! ## Calls and their effects -/

/-- The database when a command is served, and how the command goes. -/
structure Moment where
  db : Db
  outcome : Outcome

/-- What a collector has published and deleted. -/
structure Ledger where
  published : List TombstoneEvent
  blobs : List Hash
  rows : List Hash

def Ledger.empty : Ledger := ⟨[], [], []⟩

/-- `HardDeleteBlocks` on a database: the number that it returns, and the rows that are gone. -/
def hardDeleted (d : Db) (hashes : List Hash) : Option Nat × List Hash :=
  match (Cas.deleteBlocks hashes).alone d with
  | .ok (n, d') => (some n, d.blocks.keysWhere fun h _ => (d'.blocks.lookup h).isNone)
  | .error _ => (none, [])

def Moment.answer (m : Moment) : (c : Cmd) → Answer c
  | .deleteBlocks hashes => if m.outcome.isOk then (hardDeleted m.db hashes).1 else none
  | c => reply m.db m.outcome c

/-- The ledger after a command that has its effect. -/
def Ledger.record (l : Ledger) (d : Db) : Cmd → Ledger
  | .publish _ e => { l with published := l.published ++ [e] }
  | .deleteBlob h => { l with blobs := l.blobs ++ [h] }
  | .deleteBlocks hashes => { l with rows := l.rows ++ (hardDeleted d hashes).2 }
  | _ => l

/-- A command is served at the next moment. -/
def serve (env : Nat → Moment) (c : Cmd) (s : Nat × Ledger) : Answer c × Nat × Ledger :=
  let m := env s.1
  (m.answer c, s.1 + 1, if m.outcome.applied then s.2.record m.db c else s.2)

/-- The calls of a process. -/
inductive GcCall
  | sweepOrphanedBlocks (now : Time)
  | runLeaderSweep (hasElector hasPublisher : Bool)
  | processMessage (m : TombstoneMessage)

/-- The moments that have passed, the rate limiter and the ledger of a process. -/
structure Desk where
  moment : Nat
  limiter : RateLimiter
  ledger : Ledger

/-- A call of a collector, and of a consumer whose `dryRun` is that of the collector. -/
def Desk.serve (env : Nat → Moment) (gc : GarbageCollector) (s : Desk) : GcCall → Desk
  | .sweepOrphanedBlocks now =>
    let r := (gc.sweepOrphanedBlocks now s.limiter).eval (Gc.serve env) (s.moment, s.ledger)
    ⟨r.2.1, r.1, r.2.2⟩
  | .runLeaderSweep hasElector hasPublisher =>
    let r := (runLeaderSweep gc hasElector hasPublisher).eval (Gc.serve env) (s.moment, s.ledger)
    ⟨r.2.1, s.limiter, r.2.2⟩
  | .processMessage m =>
    let r := (processMessage gc.cfg.dryRun m).eval (Gc.serve env) (s.moment, s.ledger)
    ⟨r.2.1, s.limiter, r.2.2⟩

/-- A process that has done nothing yet. -/
def Desk.start (r : RateLimiter) : Desk := ⟨0, r, .empty⟩

/-- A call as the step of a run. -/
def Desk.step (env : Nat → Moment) (gc : GarbageCollector) (s : Desk) (c : GcCall) : Option Desk :=
  some (s.serve env gc c)

/-- The blocks that the query of a collector finds. -/
def GarbageCollector.finds (gc : GarbageCollector) (m : Moment) : List BlockInfo :=
  ((m.answer (.findOrphans (gc.cfg.safetyWindow / 10 ^ 9) gc.cfg.batchSize) :
    Option (List BlockInfo))).getD []

/-- **The condition**: where a leader's sweep is called, the node is not the leader, or the query
finds nothing. -/
def Quiet (env : Nat → Moment) (gc : GarbageCollector) (s : Desk) : GcCall → Prop
  | .runLeaderSweep true _ =>
    (env s.moment).outcome.isOk = false ∨ gc.finds (env (s.moment + 1)) = []
  | .runLeaderSweep false _ => gc.finds (env s.moment) = []
  | _ => True

/-! ## Commands without effect -/

/-- The command publishes nothing and deletes nothing. -/
def Harmless : Cmd → Prop
  | .publish _ _ => False
  | .deleteBlob _ => False
  | .deleteBlocks _ => False
  | _ => True

theorem record_harmless (h : Harmless c) (l : Ledger) (d : Db) : l.record d c = l := by
  cases c with
  | publish topic e => exact h.elim
  | deleteBlob hash => exact h.elim
  | deleteBlocks hashes => exact h.elim
  | _ => rfl

/-- A program of harmless commands leaves the ledger as it is. -/
theorem ledger_of_issues {p : Collector β} (hp : p.Issues Harmless) (env : Nat → Moment)
    (s : Nat × Ledger) : (p.eval (serve env) s).2.2 = s.2 := by
  refine hp.eval (I := fun s' : Nat × Ledger => s'.2 = s.2) (fun c s' hc hs' => ?_) rfl
  rw [serve]
  dsimp only
  rw [record_harmless hc, ite_self, hs']

variable {gc : GarbageCollector} {env : Nat → Moment}

section
variable (hdry : gc.cfg.dryRun = true)
include hdry

theorem processBlock_harmless (b : BlockInfo) : (gc.processBlock b).Issues Harmless := by
  refine ⟨trivial, fun a => ?_⟩
  match a with
  | none => trivial
  | some false => exact ⟨trivial, fun _ => trivial⟩
  | some true =>
    show Issues Harmless (gc.expireBlock b)
    unfold GarbageCollector.expireBlock
    rw [if_pos hdry]
    exact ⟨trivial, fun _ => trivial⟩

theorem processBatch_harmless (batch : List BlockInfo) (n : Int) :
    (gc.processBatch batch n).Issues Harmless := by
  induction batch generalizing n with
  | nil => trivial
  | cons b batch ih =>
    rw [GarbageCollector.processBatch]
    split
    · trivial
    · exact (processBlock_harmless hdry b).bind fun deleted => ih _

/-- A dry sweep publishes and deletes nothing. -/
theorem sweepOrphanedBlocks_harmless (now : Time) (r : RateLimiter) :
    (gc.sweepOrphanedBlocks now r).Issues Harmless := by
  refine ⟨trivial, fun a => ?_⟩
  match a with
  | none => trivial
  | some blocks =>
    show Issues Harmless (if blocks.isEmpty then _ else _)
    split
    · trivial
    · exact (Issues.foldEach (fun _ _ => processBatch_harmless hdry _ _) _ _).bind fun _ => trivial

end

/-- A dry consumer deletes nothing. -/
theorem processMessage_harmless (m : TombstoneMessage) :
    (processMessage true m).Issues Harmless := by
  unfold processMessage
  cases m.value with
  | none => trivial
  | some e => exact ⟨trivial, fun _ => trivial⟩

/-! ## The leader's sweep -/

/-- A sweep whose query finds nothing. -/
theorem leaderSweep_quiet (h : gc.finds (env n) = []) :
    ((leaderSweep gc hasPublisher).eval (serve env) (n, l)).2.2 = l := by
  obtain ⟨a, ha⟩ : ∃ a : Option (List BlockInfo),
      (env n).answer (.findOrphans (gc.cfg.safetyWindow / 10 ^ 9) gc.cfg.batchSize) = a := ⟨_, rfl⟩
  have hserve : serve env (.findOrphans (gc.cfg.safetyWindow / 10 ^ 9) gc.cfg.batchSize) (n, l) =
      (a, n + 1, l) := by
    rw [serve]
    dsimp only
    rw [ha, record_harmless (c := .findOrphans _ _) trivial, ite_self]
    rfl
  have hnone : a.getD [] = [] := by
    rw [GarbageCollector.finds, ha] at h
    exact h
  cases a with
  | none =>
    have hsweep : (leaderSweep gc hasPublisher).eval (serve env) (n, l) = (false, n + 1, l) :=
      eval_call hserve
    rw [hsweep]
  | some blocks =>
    obtain rfl : blocks = [] := hnone
    have hsweep : (leaderSweep gc hasPublisher).eval (serve env) (n, l) = (true, n + 1, l) :=
      eval_call hserve
    rw [hsweep]

theorem runLeaderSweep_quiet (h : Quiet env gc s (.runLeaderSweep hasElector hasPublisher)) :
    ((runLeaderSweep gc hasElector hasPublisher).eval (serve env) (s.moment, s.ledger)).2.2 =
      s.ledger := by
  cases hasElector with
  | false => exact leaderSweep_quiet h
  | true =>
    have hserve : serve env .isLeader (s.moment, s.ledger) =
        ((env s.moment).outcome.isOk, s.moment + 1, s.ledger) := by
      rw [serve]
      dsimp only
      rw [record_harmless (c := .isLeader) trivial, ite_self]
      rfl
    have hrun : (runLeaderSweep gc true hasPublisher).eval (serve env) (s.moment, s.ledger) =
        Proc.eval (serve env)
          (if (env s.moment).outcome.isOk then leaderSweep gc hasPublisher else .ret true)
          (s.moment + 1, s.ledger) :=
      eval_call hserve
    rw [hrun]
    split
    · next hleader =>
      rcases h with hfollower | hnothing
      · rw [hleader] at hfollower
        cases hfollower
      · exact leaderSweep_quiet hnothing
    · rfl

/-! ## Dry runs -/

/-- One call leaves the ledger as it is. -/
theorem serve_inert (hdry : gc.cfg.dryRun = true) (h : Quiet env gc s c) :
    (s.serve env gc c).ledger = s.ledger := by
  cases c with
  | sweepOrphanedBlocks now =>
    exact ledger_of_issues (sweepOrphanedBlocks_harmless hdry now s.limiter) env _
  | runLeaderSweep hasElector hasPublisher => exact runLeaderSweep_quiet h
  | processMessage m =>
    rw [Desk.serve, hdry]
    exact ledger_of_issues (processMessage_harmless m) env _

/-- **Dry runs are inert** as long as no leader's sweep finds a block: nothing is published, no blob
and no row is deleted. -/
theorem dryRun_inert (gc : GarbageCollector) (hdry : gc.cfg.dryRun = true) (env : Nat → Moment)
    (r : RateLimiter) (calls : List GcCall) (s : Desk)
    (hquiet : Run.Throughout (Desk.step env gc) (Quiet env gc) (.start r) calls)
    (hrun : Run.run (Desk.step env gc) (.start r) calls = some s) : s.ledger = .empty := by
  refine hquiet.run_induction (I := fun s => s.ledger = .empty) (fun hs hq hstep => ?_) rfl hrun
  cases hstep
  exact (serve_inert hdry hq).trans hs

/-! ## A dry run of each kind -/

/-- A block without references, created at 0. -/
def oneOrphan : Db := { Db.seed (AList.singleton 1 ⟨100, 0⟩) ∅ ∅ with
  blocks := AList.singleton 7 ⟨1, 4, .hot, 0, false, 0⟩ }

/-- The database on the eighth day, and every command succeeds. -/
def eighthDay (_ : Nat) : Moment := ⟨oneOrphan, .ok dayEight⟩

/-- The collector with default settings, which runs dry. -/
def dryCollector : GarbageCollector := .new true ⟨0, 0, 0, true⟩

/-- The same, but the node is not the leader at the fourth command. -/
def followerOnce (n : Nat) : Moment :=
  if n = 3 then ⟨oneOrphan, .error false ""⟩ else eighthDay n

/-- A sweep of the collector, a sweep of the leader's, and a message of the consumer. -/
def threeCalls : List GcCall :=
  [.sweepOrphanedBlocks dayEight, .runLeaderSweep true true,
    .processMessage ⟨0, some ⟨7, 1, 4, "orphan_gc"⟩⟩]

/-- The first sweep finds the block, the second is a follower's, and the consumer reads a
tombstone. -/
theorem dryRun_inert_follower :
    ∃ s, Run.run (Desk.step followerOnce dryCollector) (.start ⟨0, 0⟩) threeCalls = some s ∧
      s.moment = 5 ∧ s.ledger = .empty := by
  refine ⟨_, rfl, by decide +kernel,
    dryRun_inert dryCollector rfl followerOnce ⟨0, 0⟩ threeCalls _ ?_ rfl⟩
  refine ⟨trivial, fun s hs => ⟨.inl ?_, fun s' hs' => ⟨trivial, fun _ _ => trivial⟩⟩⟩
  cases hs
  decide +kernel

/-- **The leader's sweep is not dry**: it publishes the tombstone of the block and deletes its
row. -/
theorem leaderSweep_not_dry :
    dryCollector.cfg.dryRun = true ∧
      ∃ s, Run.run (Desk.step eighthDay dryCollector) (.start ⟨0, 0⟩)
          [.runLeaderSweep false true] = some s ∧
        s.ledger.published.map TombstoneEvent.blockHash = [7] ∧ s.ledger.rows = [7] := by
  refine ⟨rfl, _, rfl, ?_⟩
  decide +kernel

end Aegis.Gc
