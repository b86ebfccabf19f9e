import Aegis.Gc.Collectors

/-!
# Collectors whose calls fail

What the collectors have done by the time they delete a row, whatever the calls before it answered.
`processBatch` goes on to the next step for a block only if the step before succeeded, and counts
the rows it deletes against its limit. `GCWorker.sweep` and `RunLeaderSweep` do not look at the
results of the cleanup, so a row may go whose blob stays and of which no tombstone tells. The
tombstone consumer does not commit a message whose deletion failed; but a commit of a later message
covers it.
-/

namespace Aegis.Gc

open Proc

/-! ## Rounds of `processBatch` -/

/-- What a round has achieved for its block. -/
inductive Progress
  | nothing
  | checked (h : Hash)
  | published (h : Hash)
  | erased (h : Hash)
  deriving DecidableEq

/-- The calls that are in order after what the round has achieved, and what it has achieved then. A
double check begins the next round. -/
def Progress.step (hasBlob : Bool) (p : Progress) : Event Cmd Answer → Option Progress
  | ⟨.doubleCheck h, (still : Option Bool)⟩ =>
    some (if still = some true then .checked h else .nothing)
  | ⟨.publish _ e, (ok : Bool)⟩ =>
    if p = .checked e.blockHash then some (if ok then .published e.blockHash else .nothing)
    else none
  | ⟨.deleteBlob h, (err : Option String)⟩ =>
    if p = .published h then some (if err = none then .erased h else .nothing) else none
  | ⟨.deleteBlocks [h], _⟩ =>
    if p = if hasBlob then .erased h else .published h then some .nothing else none
  | ⟨.audit _, _⟩ => some p
  | _ => none

/-- The rows that a call has deleted. -/
def rowsDeleted : Event Cmd Answer → Nat
  | ⟨.deleteBlocks _, (n : Option Nat)⟩ => n.getD 0
  | _ => 0

/-- The counter of a collector after any batches, and the rows deleted since the counter was set
to 0. A hash is the key of its row, so a call deletes one row at most. -/
inductive Counted (gc : GarbageCollector) : Int → Nat → Prop
  | reset : Counted gc 0 0
  | batch {n n' : Int} {rows : Nat} {batch : List BlockInfo} {t : List (Event Cmd Answer)} :
    Counted gc n rows → (gc.processBatch batch n).Traces t n' → (∀ e ∈ t, rowsDeleted e ≤ 1) →
    Counted gc n' (rows + (t.map rowsDeleted).sum)

section
variable {gc : GarbageCollector} {b : BlockInfo} {t : List (Event Cmd Answer)} {deleted : Bool}

/-- The calls of a trace are in order, and the rows it deletes are counted in its result. -/
def Orderly (hasBlob : Bool) (p : Progress) (t : List (Event Cmd Answer)) (deleted : Nat) : Prop :=
  (Run.run (Progress.step hasBlob) p t).isSome = true ∧
    ((∀ e ∈ t, rowsDeleted e ≤ 1) → (t.map rowsDeleted).sum = deleted)

theorem hardDelete_trace (ht : (hardDelete h).Traces t deleted) :
    ∃ n : Option Nat, t = [⟨.deleteBlocks [h], n⟩] ∧ deleted = decide (0 < n.getD 0) := by
  cases ht with
  | call a ht =>
    match a with
    | none => cases ht; exact ⟨none, rfl, rfl⟩
    | some n => cases ht; exact ⟨some n, rfl, rfl⟩

theorem purgeBlock_trace (ht : (gc.purgeBlock b).Traces t deleted) :
    Orderly gc.hasBlob (.published b.blockHash) t deleted.toNat := by
  have hrow : ∀ n : Nat, n ≤ 1 → n = (decide (0 < n)).toNat := by decide
  cases hb : gc.hasBlob with
  | false =>
    rw [GarbageCollector.purgeBlock, if_neg (by rw [hb]; decide)] at ht
    obtain ⟨n, rfl, rfl⟩ := hardDelete_trace ht
    exact ⟨by simp [Run.run, Progress.step], by simpa [rowsDeleted] using hrow _⟩
  | true =>
    rw [GarbageCollector.purgeBlock, if_pos hb] at ht
    cases ht with
    | call a ht =>
      cases a with
      | some err =>
        cases ht with
        | call _ ht =>
          cases ht
          exact ⟨by simp [Run.run, Progress.step], by simp [rowsDeleted]⟩
      | none =>
        cases ht with
        | call _ ht =>
          obtain ⟨n, rfl, rfl⟩ := hardDelete_trace ht
          exact ⟨by simp [Run.run, Progress.step], by simpa [rowsDeleted] using hrow _⟩

/-- **One round**: from any point on its calls are in order. -/
theorem processBlock_trace (ht : (gc.processBlock b).Traces t deleted) (p : Progress) :
    Orderly gc.hasBlob p t deleted.toNat := by
  cases ht with
  | call a ht =>
    match a with
    | none =>
      cases ht
      exact ⟨rfl, fun _ => rfl⟩
    | some false =>
      cases ht with
      | call _ ht =>
        cases ht
        exact ⟨rfl, fun _ => rfl⟩
    | some true =>
      rw [GarbageCollector.expireBlock] at ht
      split at ht
      · cases ht with
        | call _ ht =>
          cases ht
          exact ⟨rfl, fun _ => rfl⟩
      · cases ht with
        | call ok ht =>
          match ok with
          | false =>
            cases ht
            exact ⟨by simp [Run.run, Progress.step, tombstoneOf], by simp [rowsDeleted]⟩
          | true =>
            cases ht with
            | call _ ht =>
              obtain ⟨hrun, hrows⟩ := purgeBlock_trace ht
              refine ⟨?_, fun hone => ?_⟩
              · simpa [Run.run, Progress.step, tombstoneOf] using hrun
              · simpa [rowsDeleted] using hrows fun e he => hone e (by simp [he])

/-- **A batch**: the calls of all rounds are in order, and the counter stays within the limit. -/
theorem processBatch_trace (ht : (gc.processBatch batch n).Traces t n') (p : Progress) :
    Orderly gc.hasBlob p t (n' - n).toNat ∧ n ≤ n' ∧ n' ≤ max n gc.cfg.maxBlocksPerHour := by
  induction batch generalizing n t p with
  | nil =>
    cases ht
    exact ⟨⟨rfl, fun _ => by simp⟩, le_rfl, le_max_left _ _⟩
  | cons b batch ih =>
    rw [GarbageCollector.processBatch] at ht
    split at ht
    · cases ht
      exact ⟨⟨rfl, fun _ => by simp⟩, le_rfl, le_max_left _ _⟩
    · next hlim =>
      obtain ⟨t₁, deleted, t₂, rfl, h₁, h₂⟩ := ht.of_bind
      obtain ⟨hrun, hrows⟩ := processBlock_trace h₁ p
      obtain ⟨p', hp'⟩ := Option.isSome_iff_exists.1 hrun
      obtain ⟨⟨hrun', hrows'⟩, hle, hmax⟩ := ih h₂ p'
      have hcount : n + deleted.toNat = if deleted then n + 1 else n := by
        cases deleted <;> simp
      rw [← hcount] at hrows' hle hmax
      refine ⟨⟨?_, fun hone => ?_⟩, by omega, by omega⟩
      · rw [Run.run_append hp']
        exact hrun'
      · rw [List.map_append, List.sum_append, hrows fun e he => hone e (by simp [he]),
          hrows' fun e he => hone e (by simp [he])]
        omega

/-- The counter counts the deleted rows, up to the limit. -/
theorem Counted.bounds (h : Counted gc n rows) (hmax : 0 ≤ gc.cfg.maxBlocksPerHour) :
    n = rows ∧ n ≤ gc.cfg.maxBlocksPerHour := by
  induction h with
  | reset => exact ⟨rfl, hmax⟩
  | batch _ ht hone ih =>
    obtain ⟨⟨-, hrows⟩, hle, hbound⟩ := processBatch_trace ht .nothing
    rw [hrows hone]
    omega

end

/-- **`processBatch` keeps the order and the limit**, for every collector that `New` makes, after
any batches and whatever the calls answer: a row is deleted only after, in the same round, the
double check found the block unreferenced, its tombstone was published and its blob deleted; a
round whose double check does not confirm publishes and deletes nothing; and the rows deleted since
the counter was last reset are within `MaxBlocksPerHour`. -/
theorem processBatch_orderly (hasBlob : Bool) (cfg : Config) {n n' : Int} {rows : Nat}
    (hn : Counted (.new hasBlob cfg) n rows) (batch : List BlockInfo)
    {t : List (Event Cmd Answer)}
    (ht : ((GarbageCollector.new hasBlob cfg).processBatch batch n).Traces t n')
    (hone : ∀ e ∈ t, rowsDeleted e ≤ 1) :
    (Run.run (Progress.step hasBlob) .nothing t).isSome = true ∧
      ((rows + (t.map rowsDeleted).sum : Nat) : Int) ≤
        (GarbageCollector.new hasBlob cfg).cfg.maxBlocksPerHour := by
  have hmax : 0 ≤ (GarbageCollector.new hasBlob cfg).cfg.maxBlocksPerHour := by
    simp only [GarbageCollector.new, Config.applyDefaults]
    split <;> omega
  obtain ⟨⟨hrun, -⟩, -⟩ := processBatch_trace ht .nothing
  refine ⟨hrun, ?_⟩
  obtain ⟨heq, hle⟩ := (hn.batch ht hone).bounds hmax
  exact heq ▸ hle

/-- A block is checked, its tombstone published and its row deleted. -/
def purged : List (Event Cmd Answer) :=
  [⟨.doubleCheck 7, some true⟩, ⟨.publish "cas-tombstones" ⟨7, 1, 4, "orphan_gc"⟩, true⟩,
    ⟨.audit ⟨.tombstoneEmitted, 7, 1, 4, "orphan_gc", ""⟩, ()⟩, ⟨.deleteBlocks [7], some 1⟩]

theorem processBatch_orderly_purged :
    ((GarbageCollector.new false ⟨0, 0, 1, false⟩).processBatch [⟨7, 1, 4⟩] 0).Traces purged 1 ∧
      (Run.run (Progress.step false) .nothing purged).isSome = true := by
  have ht : ((GarbageCollector.new false ⟨0, 0, 1, false⟩).processBatch [⟨7, 1, 4⟩] 0).Traces
      purged 1 := .call _ (.call _ (.call _ (.call _ (.ret _))))
  exact ⟨ht, (processBatch_orderly false _ .reset _ ht (by decide)).1⟩

/-! ## Rows removed by the other collectors -/

/-- The block that a call cleans up, and whether it could: its blob is deleted, or its tombstone
published. -/
def cleanup : Event Cmd Answer → List (Hash × Bool)
  | ⟨.deleteBlob h, (err : Option String)⟩ => [(h, err.isNone)]
  | ⟨.publish _ e, (ok : Bool)⟩ => [(e.blockHash, ok)]
  | _ => []

/-- The blocks whose rows a call is to delete. -/
def named : Event Cmd Answer → List Hash
  | ⟨.deleteBlocks hashes, _⟩ => hashes
  | _ => []

/-- The rows that a call removes: of those it names the ones that go. The answer does not tell: a
row that is referenced again stays, and an error may have come after the deletion. -/
def removed (gone : Hash → Bool) (e : Event Cmd Answer) : List Hash := (named e).filter gone

/-- Each removed row is related to the cleanup so far. -/
def AtRemovals (gone : Hash → Bool) (R : List (Hash × Bool) → Hash → Prop) :
    List (Hash × Bool) → List (Event Cmd Answer) → Prop
  | _, [] => True
  | seen, e :: t => (∀ h ∈ removed gone e, R seen h) ∧ AtRemovals gone R (seen ++ cleanup e) t

/-- The blocks that a query has found. -/
def found : Event Cmd Answer → List Hash
  | ⟨.findOrphans _ _, (bs : Option (List BlockInfo))⟩ => (bs.getD []).map BlockInfo.blockHash
  | _ => []

/-- Of these blocks each is cleaned up once at most, before its row is removed, and the row of what
is cleaned up is to be deleted, however the cleanup ends. -/
structure Attempted (gone : Hash → Bool) (hashes : List Hash) (t : List (Event Cmd Answer)) :
    Prop where
  once : ((t.flatMap cleanup).map Prod.fst).Sublist hashes
  before : ∀ seen, AtRemovals gone (fun seen h => h ∈ seen.map Prod.fst) seen t
  anyway : ∀ a ∈ t.flatMap cleanup, a.1 ∈ t.flatMap named

section
variable {gone : Hash → Bool} {R : List (Hash × Bool) → Hash → Prop}
  {t t' : List (Event Cmd Answer)}

theorem atRemovals_append (seen : List (Hash × Bool)) :
    AtRemovals gone R seen (t ++ t') ↔
      AtRemovals gone R seen t ∧ AtRemovals gone R (seen ++ t.flatMap cleanup) t' := by
  induction t generalizing seen with
  | nil => simp [AtRemovals]
  | cons e t ih => simp [AtRemovals, ih, and_assoc]

/-- A trace without calls. -/
theorem Attempted.nil : Attempted gone hs [] := ⟨List.nil_sublist _, fun _ => trivial, nofun⟩

/-- A call that neither cleans up nor deletes rows. -/
theorem Attempted.cons (hc : cleanup e = []) (hn : named e = []) (h : Attempted gone hs t) :
    Attempted gone hs (e :: t) where
  once := by simpa [hc] using h.once
  before seen := ⟨by simp [removed, hn], h.before _⟩
  anyway := by simpa [hc, hn] using h.anyway

/-- Two traces on blocks of their own. -/
theorem Attempted.append (h : Attempted gone hs t) (h' : Attempted gone hs' t') :
    Attempted gone (hs ++ hs') (t ++ t') where
  once := by simpa using h.once.append h'.once
  before seen := (atRemovals_append seen).2 ⟨h.before seen, h'.before _⟩
  anyway a ha := by
    rw [List.flatMap_append, List.mem_append] at ha ⊢
    exact ha.imp (h.anyway a) (h'.anyway a)

/-- With one attempt for each block, the row goes after a cleanup exactly if the attempt did not
fail. -/
theorem atRemovals_iff (seen : List (Hash × Bool))
    (hbefore : AtRemovals gone (fun seen h => h ∈ seen.map Prod.fst) seen t)
    (honce : ((seen ++ t.flatMap cleanup).map Prod.fst).Nodup) :
    AtRemovals gone (fun seen h => (h, true) ∈ seen) seen t ↔
      ∀ e ∈ t, ∀ h ∈ removed gone e, (h, false) ∉ seen ++ t.flatMap cleanup := by
  induction t generalizing seen with
  | nil => simp [AtRemovals]
  | cons e t ih =>
    rw [List.flatMap_cons, ← List.append_assoc] at honce ⊢
    rw [AtRemovals, ih _ hbefore.2 honce, List.forall_mem_cons]
    refine and_congr_left fun _ => forall₂_congr fun h hh => ?_
    obtain ⟨⟨h, ok⟩, hok, rfl⟩ := List.mem_map.1 (hbefore.1 h hh)
    have hmem : ∀ b, (h, b) ∈ seen → (h, b) ∈ seen ++ cleanup e ++ t.flatMap cleanup :=
      fun b hb => List.mem_append_left _ (List.mem_append_left _ hb)
    refine ⟨fun htrue hfalse => ?_, fun hfalse => ?_⟩
    · cases List.inj_on_of_nodup_map honce (hmem _ htrue) hfalse rfl
    · cases ok with
      | true => exact hok
      | false => exact absurd (hmem _ hok) hfalse

/-- The blobs come first, one after the other. -/
theorem deleteBlobs_trace (ht : (deleteBlobs true os).Traces t ()) :
    (t.flatMap cleanup).map Prod.fst = os.map BlockInfo.blockHash ∧
      ∀ seen, AtRemovals gone R seen t := by
  rw [deleteBlobs, if_pos rfl] at ht
  induction os generalizing t with
  | nil =>
    cases ht
    exact ⟨rfl, fun _ => trivial⟩
  | cons o os ih =>
    cases ht with
    | call err ht =>
      obtain ⟨hfst, hbefore⟩ := ih ht
      exact ⟨by simp [cleanup, hfst], fun seen => ⟨by simp [removed, named], hbefore _⟩⟩

/-- All blobs, and then the rows of all blocks. -/
theorem removeOrphans_trace (ht : (removeOrphans true os).Traces t ()) :
    Attempted gone (os.map BlockInfo.blockHash) t := by
  obtain ⟨t₁, ⟨⟩, t₂, rfl, h₁, h₂⟩ := ht.of_bind
  obtain ⟨hfst, hbefore⟩ := deleteBlobs_trace h₁
  cases h₂ with
  | call n h₂ =>
    cases h₂
    refine ⟨by simp [cleanup, hfst], fun seen => (atRemovals_append seen).2 ⟨hbefore seen, ?_⟩,
      fun a ha => ?_⟩
    · refine ⟨fun h hh => ?_, trivial⟩
      have hmem : h ∈ (t₁.flatMap cleanup).map Prod.fst := hfst ▸ (List.mem_filter.1 hh).1
      dsimp only
      rw [List.map_append]
      exact List.mem_append_right _ hmem
    · have hmem : a.1 ∈ os.map BlockInfo.blockHash :=
        hfst ▸ List.mem_map_of_mem (by simpa [cleanup] using ha)
      rw [List.flatMap_append]
      exact List.mem_append_right _ (List.mem_flatMap.2 ⟨_, List.mem_singleton_self _, hmem⟩)

/-- A round of the leader. -/
theorem leaderBlock_trace (ht : (leaderBlock true b).Traces t ()) :
    Attempted gone [b.blockHash] t := by
  cases ht with
  | call token ht =>
    match token with
    | none =>
      cases ht
      exact .cons rfl rfl .nil
    | some token =>
      cases ht with
      | call still ht =>
        refine .cons rfl rfl (.cons rfl rfl ?_)
        match still with
        | some true =>
          cases ht with
          | call ok ht =>
            cases ht with
            | call n ht =>
              cases ht with
              | call _ ht =>
                cases ht
                exact ⟨by simp [cleanup, tombstoneOf],
                  fun seen => by simp [AtRemovals, removed, named, cleanup, tombstoneOf],
                  by simp [named, cleanup, tombstoneOf]⟩
        | some false | none =>
          cases ht with
          | call _ ht =>
            cases ht
            exact .cons rfl rfl .nil

/-- The rounds of the leader, one for each block. -/
theorem rounds_trace (ht : (forEach (leaderBlock true) blocks).Traces t ()) :
    Attempted gone (blocks.map BlockInfo.blockHash) t := by
  induction blocks generalizing t with
  | nil =>
    cases ht
    exact .nil
  | cons b blocks ih =>
    obtain ⟨t₁, ⟨⟩, t₂, rfl, h₁, h₂⟩ := ht.of_bind
    exact (leaderBlock_trace h₁).append (ih h₂)

/-- A query, and then what is done with the blocks it has found. -/
theorem query_trace {next : Option (List BlockInfo) → Collector β}
    (ht : ((findOrphans w l).bind next).Traces t b)
    (hnone : ∀ t b, (next none).Traces t b → t = [])
    (hsome : ∀ bs t b, (next (some bs)).Traces t b →
      Attempted gone (bs.map BlockInfo.blockHash) t) : Attempted gone (t.flatMap found) t := by
  cases ht with
  | call a ht =>
    match a with
    | none =>
      cases hnone _ _ ht
      exact .cons rfl rfl .nil
    | some bs =>
      obtain ⟨honce, hbefore, hanyway⟩ := hsome bs _ _ ht
      exact .cons rfl rfl ⟨honce.trans (List.sublist_append_left _ _), hbefore, hanyway⟩

theorem sweep_trace (ht : (sweep batchSize true).Traces t ()) :
    Attempted gone (t.flatMap found) t := by
  refine query_trace ht (fun t b h => by cases h; rfl) fun bs t b h => ?_
  dsimp only at h
  split at h
  · cases h
    exact .nil
  · exact removeOrphans_trace h

theorem leaderSweep_trace (ht : (leaderSweep gc true).Traces t b) :
    Attempted gone (t.flatMap found) t := by
  refine query_trace ht (fun t b h => by cases h; rfl) fun bs t b h => ?_
  obtain ⟨t₁, ⟨⟩, t₂, rfl, h₁, h₂⟩ := h.of_bind
  cases h₂
  rw [List.append_nil]
  exact rounds_trace h₁

theorem runLeaderSweep_trace (ht : (runLeaderSweep gc hasElector true).Traces t b) :
    Attempted gone (t.flatMap found) t := by
  cases hasElector with
  | false => exact leaderSweep_trace ht
  | true =>
    cases ht with
    | call leads ht =>
      match leads with
      | false =>
        cases ht
        exact .cons rfl rfl .nil
      | true => exact .cons rfl rfl (leaderSweep_trace ht)

end

/-- **Rows without a trace**: a sweep with a blob deleter and a leader's sweep with a publisher
remove only rows of blocks whose blob was deleted or whose tombstone was published before, whichever
rows go, exactly if every deletion of a blob and every publication is answered without an error. A
query finds no block twice, as the hash is the key of the table. -/
theorem rows_cleaned_iff {t : List (Event Cmd Answer)}
    (ht : (∃ batchSize, (sweep batchSize true).Traces t ()) ∨
      ∃ gc hasElector ok, (runLeaderSweep gc hasElector true).Traces t ok)
    (hkey : (t.flatMap found).Nodup) :
    (∀ gone, AtRemovals gone (fun seen h => (h, true) ∈ seen) [] t) ↔
      ∀ a ∈ t.flatMap cleanup, a.2 = true := by
  have h : ∀ gone, Attempted gone (t.flatMap found) t := by
    intro gone
    obtain ⟨batchSize, ht⟩ | ⟨gc, hasElector, ok, ht⟩ := ht
    · exact sweep_trace ht
    · exact runLeaderSweep_trace ht
  have hiff : ∀ gone, AtRemovals gone (fun seen h => (h, true) ∈ seen) [] t ↔
      ∀ e ∈ t, ∀ h ∈ removed gone e, (h, false) ∉ t.flatMap cleanup :=
    fun gone => atRemovals_iff [] ((h gone).before []) (hkey.sublist (h gone).once)
  constructor
  · intro hall a ha
    -- its row is deleted all the same; suppose that it goes
    obtain ⟨e, he, hnamed⟩ := List.mem_flatMap.1 ((h fun _ => true).anyway a ha)
    have hnot := (hiff fun _ => true).1 (hall _) e he a.1 (List.mem_filter.2 ⟨hnamed, rfl⟩)
    obtain ⟨x, ok⟩ := a
    cases ok with
    | true => rfl
    | false => exact absurd ha hnot
  · intro hok gone
    exact (hiff gone).2 fun e _ x _ hx => nomatch hok _ hx

/-- The leader's sweep of one block, for which publication answers `ok`. -/
def leaderSwept (ok : Bool) : List (Event Cmd Answer) :=
  [⟨.isLeader, true⟩, ⟨.findOrphans 604800 1000, some [⟨7, 1, 4⟩]⟩,
    ⟨.acquire (lockKey 7) 10, some ['t']⟩, ⟨.doubleCheck 7, some true⟩,
    ⟨.publish "cas-tombstones" ⟨7, 1, 4, "orphan_gc"⟩, ok⟩, ⟨.deleteBlocks [7], some 1⟩,
    ⟨.release ['t'], ()⟩]

/-- Whatever publication answers, the sweep goes on. -/
theorem leaderSwept_traces (ok : Bool) :
    (runLeaderSweep (.new false ⟨0, 0, 0, false⟩) true true).Traces (leaderSwept ok) true :=
  .call _ (.call _ (.call _ (.call _ (.call _ (.call _ (.call _ (.ret _)))))))

theorem rows_cleaned_of_published :
    (runLeaderSweep (.new false ⟨0, 0, 0, false⟩) true true).Traces (leaderSwept true) true ∧
      ∀ gone, AtRemovals gone (fun seen h => (h, true) ∈ seen) [] (leaderSwept true) :=
  ⟨leaderSwept_traces true, (rows_cleaned_iff (.inr ⟨_, _, _, leaderSwept_traces true⟩)
    (by simp [leaderSwept, found])).2 (by simp [leaderSwept, cleanup])⟩

/-- **A leaked blob**: the tombstone is not published, and the row is removed. -/
theorem row_removed_unpublished :
    (runLeaderSweep (.new false ⟨0, 0, 0, false⟩) true true).Traces (leaderSwept false) true ∧
      ¬ AtRemovals (fun _ => true) (fun seen h => (h, true) ∈ seen) [] (leaderSwept false) :=
  ⟨leaderSwept_traces _, by simp [leaderSwept, AtRemovals, removed, named, cleanup]⟩

/-! ## Tombstones whose deletion fails -/

/-- A message that `Run` has read, and the calls of `processMessage`. -/
abbrev Read : Type := TombstoneMessage × List (Event Cmd Answer)

/-- The committed position after a call; a commit covers all messages before. -/
def position (pos : Nat) : Event Cmd Answer → Nat
  | ⟨.commitMessage m, _⟩ => m.offset + 1
  | _ => pos

/-- The committed position after these messages. -/
def committed (pos : Nat) (reads : List Read) : Nat :=
  reads.foldl (fun pos r => r.2.foldl position pos) pos

/-- What a run that starts at a position has read: the messages from there on, in order. -/
structure Consumed (dryRun : Bool) (start : Nat) (reads : List Read) : Prop where
  traces : ∀ r ∈ reads, (processMessage dryRun r.1).Traces r.2 ()
  inOrder : reads.Pairwise fun r r' => r.1.offset < r'.1.offset
  ahead : ∀ r ∈ reads, start ≤ r.1.offset

/-- The blob of `h` could not be deleted at a message, nor was it later. -/
def Failed (h : Hash) (r : Read) (later : List Read) : Prop :=
  (h, false) ∈ r.2.flatMap cleanup ∧ ∀ r' ∈ later, (h, true) ∉ r'.2.flatMap cleanup

section
variable {k pos : Nat} {reads : List Read}

/-- A message is committed exactly if its blob was deleted. -/
theorem processMessage_trace (ht : (processMessage false m).Traces t ()) :
    (∀ pos, t.foldl position pos = pos) ∧ (∀ h, (h, true) ∉ t.flatMap cleanup) ∨
      (∀ pos, t.foldl position pos = m.offset + 1) ∧ ∃ h, t.flatMap cleanup = [(h, true)] := by
  rw [processMessage] at ht
  split at ht
  · cases ht
    exact .inl ⟨fun _ => rfl, nofun⟩
  · cases ht with
    | call err ht =>
      match err with
      | some err =>
        cases ht
        exact .inl ⟨fun _ => rfl, by simp [cleanup]⟩
      | none =>
        cases ht with
        | call n ht =>
          cases ht with
          | call _ ht =>
            cases ht
            exact .inr ⟨fun _ => rfl, _, rfl⟩

theorem committed_le (h : ∀ r ∈ reads, (processMessage false r.1).Traces r.2 () ∧ r.1.offset < k)
    (hpos : pos ≤ k) : committed pos reads ≤ k := by
  induction reads generalizing pos with
  | nil => exact hpos
  | cons r reads ih =>
    obtain ⟨⟨ht, hlt⟩, h⟩ := List.forall_mem_cons.1 h
    refine ih h ?_
    obtain ⟨hkeep, -⟩ | ⟨hcommit, -⟩ := processMessage_trace ht
    · exact (hkeep pos).trans_le hpos
    · exact (hcommit pos).trans_le hlt

/-- Behind an offset every commit passes it. -/
theorem committed_le_iff
    (h : ∀ r ∈ reads, (processMessage false r.1).Traces r.2 () ∧ k < r.1.offset) :
    committed pos reads ≤ k ↔ pos ≤ k ∧ ∀ r ∈ reads, ∀ h, (h, true) ∉ r.2.flatMap cleanup := by
  induction reads generalizing pos with
  | nil => simp [committed]
  | cons r reads ih =>
    obtain ⟨⟨ht, hlt⟩, h⟩ := List.forall_mem_cons.1 h
    rw [committed, List.foldl_cons, ← committed, ih h, List.forall_mem_cons]
    obtain ⟨hkeep, hnone⟩ | ⟨hcommit, x, hx⟩ := processMessage_trace ht
    · rw [hkeep, and_iff_right hnone]
    · rw [hcommit]
      exact ⟨fun hle => by omega, fun hle => absurd (by simp [hx]) (hle.2.1 x)⟩

/-- In a dry run no deletion fails. -/
theorem cleanup_dryRun (ht : (processMessage true m).Traces t ()) : t.flatMap cleanup = [] := by
  rw [processMessage] at ht
  split at ht
  · cases ht
    rfl
  · cases ht with
    | call _ ht =>
      cases ht
      rfl

end

/-- **Failed tombstones are delivered again** after a restart from the committed position, exactly
if no blob has been deleted after them: the commit of that tombstone covers theirs. -/
theorem failed_redelivered_iff (hr : Consumed dryRun start reads) :
    (∀ pre r post h, reads = pre ++ r :: post → Failed h r post →
      committed start reads ≤ r.1.offset) ↔
    ∀ pre r post h, reads = pre ++ r :: post → Failed h r post →
      ∀ r' ∈ post, ∀ h', (h', true) ∉ r'.2.flatMap cleanup := by
  refine forall₄_congr fun pre r post h => forall₂_congr fun heq hf => ?_
  subst heq
  have hmem : r ∈ pre ++ r :: post := List.mem_append_right _ List.mem_cons_self
  cases dryRun with
  | true => cases (cleanup_dryRun (hr.traces r hmem)).symm ▸ hf.1
  | false =>
    obtain ⟨-, hrest, hbefore⟩ := List.pairwise_append.1 hr.inOrder
    have hpre : committed start pre ≤ r.1.offset :=
      committed_le (fun r' h' => ⟨hr.traces r' (List.mem_append_left _ h'),
        hbefore r' h' r List.mem_cons_self⟩) (hr.ahead r hmem)
    have hpost : committed start (pre ++ r :: post) = committed (committed start pre) post := by
      obtain ⟨hkeep, -⟩ | ⟨-, x, hx⟩ := processMessage_trace (hr.traces r hmem)
      · simp [committed, hkeep]
      · cases List.mem_singleton.1 (hx ▸ hf.1)
    rw [hpost, committed_le_iff fun r' h' => ⟨hr.traces r'
      (List.mem_append_right _ (List.mem_cons_of_mem _ h')), List.rel_of_pairwise_cons hrest h'⟩]
    exact and_iff_right hpre

/-- The deletion for the first message fails, that for the second does not. -/
def skipped : List Read :=
  [(⟨0, some ⟨7, 1, 4, ""⟩⟩, [⟨.deleteBlob 7, some "timeout"⟩]),
    (⟨1, some ⟨8, 1, 4, ""⟩⟩, [⟨.deleteBlob 8, none⟩, ⟨.deleteBlocks [8], some 1⟩,
      ⟨.commitMessage ⟨1, some ⟨8, 1, 4, ""⟩⟩, ()⟩])]

theorem consumed_skipped : Consumed false 0 skipped where
  traces := by
    rintro r (_ | ⟨_, _ | ⟨_, ⟨⟩⟩⟩)
    · exact .call _ (.ret _)
    · exact .call _ (.call _ (.call _ (.ret _)))
  inOrder := by simp [skipped]
  ahead _ _ := Nat.zero_le _

theorem failed_redelivered_alone : Consumed false 0 (skipped.take 1) ∧
    ∀ pre r post h, skipped.take 1 = pre ++ r :: post → Failed h r post →
      committed 0 (skipped.take 1) ≤ r.1.offset := by
  have hr : Consumed false 0 (skipped.take 1) :=
    ⟨fun r h => consumed_skipped.traces r (List.mem_of_mem_take h), List.pairwise_singleton _ _,
      fun _ _ => Nat.zero_le _⟩
  refine ⟨hr, (failed_redelivered_iff hr).2 fun pre r post h heq _ r' hr' => ?_⟩
  have hlen := congrArg List.length heq
  have hpos := List.length_pos_of_mem hr'
  simp [skipped] at hlen
  omega

/-- **A tombstone that is lost**: the commit of the next one covers it. -/
theorem failed_not_redelivered : Consumed false 0 skipped ∧
    ∃ r later, skipped = r :: later ∧ Failed 7 r later ∧ r.1.offset < committed 0 skipped :=
  ⟨consumed_skipped, _, _, rfl, ⟨by decide, List.forall_mem_singleton.2 (by decide)⟩, by decide⟩

end Aegis.Gc
