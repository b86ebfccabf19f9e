import Aegis.Gc.Race
import Aegis.Cas.RefCount

/-!
# The quarantine of unreferenced blocks

A comment in the schema says of unreferenced blocks that they are deleted only after a window of
seven days at zero. The three queries that select candidates, `gc_find_unreferenced`,
`FindOrphanedBlocks` and `FindOrphans`, compare the window with `created_at`: with the age of the
row, not with the time for which its count has been 0. So a block that is old when its last
reference goes is deleted at once. (The client refuses `FindOrphanedBlocks`, whose class it does not
know; the other two are answered.)

This module adds time to the system of collectors and transactions: every action has a moment, and
the databases of the past are kept with the moment until which each was in force. A deletion comes
after a whole window without references in every run of commits, version deletions and sweeps in
which, within the window before a query, nothing is committed that refers to a block it selects or
deletes a version of it, and nothing that refers to a block once it is selected. For the count of a
block moves by such commits only (`Touches.refCount_eq`): a block at 0 that none of them has
concerned since the window began was at 0 all the time.
-/

namespace Aegis.Gc

open Db Stmt Cas Txn Ingress Discipline

/-! ## Selection -/

/-- The query selects blocks; tombstones and deletions are what they are selected for. The double
check selects nothing. -/
def selects : Discipline Cmd Answer Hash where
  asks
    | .findOrphans _ _ => True
    | _ => False
  acts := removals.acts
  confirms := checks.confirms

variable {S : Hash → Prop} {gc : GarbageCollector}

theorem confined_selects (hp : removals.Confined S p) : selects.Confined S p := by
  refine hp.mono (fun c hc => ?_) (fun _ _ => id) fun _ => id
  cases c with
  | findOrphans w l => trivial
  | _ => exact hc.elim

/-- A query, and a use of its answer that keeps to what was found. -/
theorem findOrphans_selects (hnone : selects.Confined (fun _ => False) (next none))
    (hsome : ∀ blocks, selects.Confined (· ∈ blocks.map BlockInfo.blockHash) (next (some blocks))) :
    selects.Careful ((findOrphans w l).bind next) := by
  refine Careful.ask_confined trivial (fun _ => id) fun a => ?_
  cases a with
  | none => exact hnone.mono (fun _ => id) (fun _ _ => id) fun _ => False.elim
  | some blocks =>
    exact (hsome blocks).mono (fun _ => id) (fun _ _ => id) fun _ hk => ⟨blocks, rfl, hk⟩

theorem processBlock_selects (hS : S b.blockHash) : selects.Confined S (gc.processBlock b) := by
  refine ⟨id, nofun, fun a => ?_⟩
  match a with
  | none => trivial
  | some false => exact ⟨id, nofun, fun _ => trivial⟩
  | some true =>
    refine (confined_selects expireBlock_confined).mono (fun _ => id) (fun _ _ => id) ?_
    rintro k rfl
    exact hS

theorem processBatch_selects (hS : ∀ b ∈ batch, S b.blockHash) :
    selects.Confined S (gc.processBatch batch n) := by
  induction batch generalizing n with
  | nil => trivial
  | cons b batch ih =>
    rw [GarbageCollector.processBatch]
    split
    · trivial
    · refine (processBlock_selects (hS b List.mem_cons_self)).bind fun _ => ?_
      exact ih fun b' hb' => hS b' (List.mem_cons_of_mem b hb')

theorem leaderBlock_selects (hS : S b.blockHash) :
    selects.Confined S (leaderBlock hasPublisher b) := by
  have hretire : selects.Confined S (retireBlock hasPublisher b) := by
    refine ⟨id, nofun, fun a => ?_⟩
    match a with
    | none => trivial
    | some false => trivial
    | some true =>
      refine (confined_selects retire_confined).mono (fun _ => id) (fun _ _ => id) ?_
      rintro k rfl
      exact hS
  refine ⟨id, nofun, fun a => ?_⟩
  cases a with
  | none => trivial
  | some token => exact hretire.bind fun _ => ⟨id, nofun, fun _ => trivial⟩

theorem sweep_selects : selects.Careful (sweep batchSize b) :=
  findOrphans_selects trivial fun _ => confined_selects sweep_confined

theorem sweepOrphanedBlocks_selects : selects.Careful (gc.sweepOrphanedBlocks now r) := by
  refine findOrphans_selects trivial fun blocks => ?_
  show selects.Confined _ (if blocks.isEmpty then _ else _)
  split
  · trivial
  · refine (Confined.foldEach (fun n batch hbatch => ?_) _).bind fun _ => trivial
    refine processBatch_selects fun b hb => ?_
    obtain ⟨i, -, rfl⟩ := List.mem_map.1 hbatch
    exact List.mem_map_of_mem (List.mem_of_mem_drop (List.mem_of_mem_take hb))

theorem runLeaderSweep_selects : selects.Careful (runLeaderSweep gc hasElector hasPublisher) := by
  have hsweep : selects.Careful (leaderSweep gc hasPublisher) := by
    refine findOrphans_selects trivial fun blocks => ?_
    refine (Confined.forEach fun b hb => ?_).bind fun _ => trivial
    exact leaderBlock_selects (List.mem_map_of_mem hb)
  cases hasElector with
  | false => exact hsweep
  | true =>
    refine Careful.pass id (fun _ => id) fun a => ?_
    cases a with
    | false => exact Careful.ret
    | true => exact hsweep

/-- The collectors act on what their query has found, the consumer on what it is told. -/
theorem selects_followed : Followed selects where
  publish _ _ := rfl
  deleteBlob _ := rfl
  deleteBlocks _ := id
  launch := launch_of_careful sweep_selects sweepOrphanedBlocks_selects runLeaderSweep_selects
    (confined_selects processMessage_confined)

/-! ## What transactions do to rows -/

/-- The hashes whose rows a call can delete. -/
def erases : Call → List Hash
  | .deleteBlocks hashes => hashes
  | .gcDeleteUnreferenced batch => batch
  | _ => []

/-- Only blocks the call names get references, and only rows it may delete go. A call that refers to
blocks leaves the counts of all others alone, and a call that refers to none changes the manifest
only by deleting rows of its version. -/
structure Touches (c : Call) (d d' : Db) : Prop where
  refs : RefersWithin (adds c) d d'
  rows : ∀ h, h ∉ erases c → hasBlock h d = true → hasBlock h d' = true
  counts : adds c ≠ [] → ∀ h, h ∉ adds c → d'.refCount h = d.refCount h
  manifest : adds c = [] → ∀ k, d'.manifest.lookup k = d.manifest.lookup k ∨
    (c = .deleteVersion k.1 ∧ d'.manifest.lookup k = none)

theorem Touches.refl (c : Call) (d : Db) : Touches c d d :=
  ⟨RefersWithin.refl d, fun _ _ hd => hd, fun _ _ _ => rfl, fun _ _ => .inl rfl⟩

theorem Touches.trans (h : Touches c d₁ d₂) (h' : Touches c d₂ d₃) : Touches c d₁ d₃ where
  refs := h.refs.trans h'.refs
  rows k hk hd := h'.rows k hk (h.rows k hk hd)
  counts hne k hk := (h'.counts hne k hk).trans (h.counts hne k hk)
  manifest hnil k := by
    rcases h'.manifest hnil k with heq | hgone
    · rw [heq]
      exact h.manifest hnil k
    · exact .inr hgone

/-- A write of a call keeps the rows that the call does not delete. -/
theorem hasBlock_of_writes (hw : c.Writes f) (hh : h ∉ erases c) (hd : hasBlock h d = true) :
    hasBlock h (f d) = true := by
  obtain ⟨n, hn⟩ := (hasBlock_iff d h).1 hd
  have herase : ∀ {k : Hash}, k ∈ erases c → ∃ m, (d.eraseBlock k).refCount? h = some m := by
    intro k hk
    rw [refCount?_eraseBlock, if_neg fun heq : h = k => hh (heq ▸ hk)]
    exact ⟨n, hn⟩
  have hinsert : ∀ (k : Hash) (r : BlockRow), ∃ m, (d.insertBlock k r).refCount? h = some m := by
    intro k r
    rw [refCount?_insertBlock]
    split
    · exact ⟨_, rfl⟩
    · exact ⟨n, hn⟩
  rw [hasBlock_iff]
  cases hw with
  | fileBlock hb => exact hinsert _ _
  | fileRef hb =>
    rw [refCount?_addRef, hn]
    split
    · exact ⟨n + 1, rfl⟩
    · exact ⟨n, rfl⟩
  | dropRef v k =>
    rw [refCount?_dropRef, hn]
    split
    · exact ⟨n - 1, rfl⟩
    · exact ⟨n, rfl⟩
  | ensure k t size now => exact hinsert _ _
  | eraseBlock hk => exact herase hk
  | sweepBlock hk => exact herase hk
  | retier k =>
    rw [refCount?_retier]
    exact ⟨n, hn⟩
  | _ => exact ⟨n, hn⟩

/-- A write of a call that refers to blocks leaves the counts of others alone. -/
theorem refCount_of_writes (hw : c.Writes f) (hne : adds c ≠ []) (hh : h ∉ adds c) :
    (f d).refCount h = d.refCount h := by
  cases hw with
  | fileBlock hb =>
    rw [refCount, refCount?_insertBlock, if_neg, refCount]
    rintro rfl
    exact hh (List.mem_map_of_mem hb)
  | fileRef hb =>
    rw [refCount, refCount?_addRef, if_neg, refCount]
    rintro rfl
    exact hh (List.mem_map_of_mem hb)
  | ensure k t size now =>
    rw [refCount, refCount?_insertBlock, if_neg (mt List.mem_singleton.2 hh), refCount]
  | dropRef v k => exact absurd rfl hne
  | eraseBlock hk => exact absurd rfl hne
  | sweepBlock hk => exact absurd rfl hne
  | retier k => exact absurd rfl hne
  | _ => rfl

/-- A write of a call that refers to no block deletes manifest rows at most. -/
theorem manifest_of_writes (hw : c.Writes f) (hnil : adds c = []) (k : Uuid × Int) :
    (f d).manifest.lookup k = d.manifest.lookup k ∨
      (c = .deleteVersion k.1 ∧ (f d).manifest.lookup k = none) := by
  cases hw with
  | fileManifest hb =>
    rw [List.map_eq_nil_iff.1 hnil] at hb
    cases hb
  | eraseManifest v i =>
    rw [eraseManifest, Table.lookup_erase_eq]
    split
    · next heq =>
      subst heq
      exact .inr ⟨rfl, rfl⟩
    · exact .inl rfl
  | _ => exact .inl rfl

/-- **What a call does** to references and rows. -/
theorem body_touches (c : Call) : c.body.Within (Touches c) :=
  Call.body_within_of_writes fun f hw d =>
    ⟨refersWithin_of_writes f hw d, fun _ hh hd => hasBlock_of_writes hw hh hd,
      fun hne _ hh => refCount_of_writes hw hne hh, fun hnil k => manifest_of_writes hw hnil k⟩

/-- The hashes that the manifest rows of a version name. -/
def namedBy (v : Uuid) (d : Db) : List Hash :=
  (d.manifest.entries.filter fun e => e.1.1 == v).map fun e => e.2.blockHash

/-- The hashes whose references a call changes: those of the version it deletes, or those it refers
to. -/
def concerns : Call → Db → List Hash
  | .deleteVersion v, d => namedBy v d
  | c, _ => adds c

/-- The rows that name a block are the same, if the call does not concern it. -/
theorem Touches.manifestCount_eq (ht : Touches c d d') (hnil : adds c = [])
    (hh : h ∉ concerns c d) : d'.manifestCount h = d.manifestCount h := by
  refine Table.count_congr fun k r hr => ?_
  rcases ht.manifest hnil k with heq | ⟨rfl, hgone⟩
  · rw [heq]
  · rw [hgone]
    refine ⟨nofun, fun hrow => absurd ?_ hh⟩
    rw [← beq_iff_eq.1 hr]
    exact List.mem_map.2 ⟨⟨k, r⟩,
      List.mem_filter.2 ⟨Table.mem_entries.2 hrow, beq_self_eq_true k.1⟩, rfl⟩

/-- **A count moves only by calls that concern its block**, where counts are exact. -/
theorem Touches.refCount_eq (ht : Touches c d d') (hd : Cas.Counted (· = 0) 0 d)
    (hd' : Cas.Counted (· = 0) 0 d') (hh : h ∉ concerns c d) :
    d'.refCount h = d.refCount h := by
  by_cases hnil : adds c = []
  · rw [hd.refCount_eq, hd'.refCount_eq, ht.manifestCount_eq hnil hh]
  · refine ht.counts hnil h ?_
    cases c with
    | deleteVersion v => exact absurd rfl hnil
    | _ => exact hh

/-! ## Time -/

/-- The system at a moment: the batches that callers of `gc_find_unreferenced` have been given, the
time of the last action, the databases of the past, each with the moment until which it was in
force, and the blocks whose references were concerned by a commit, with the moment of the commit. -/
structure Timed where
  state : State
  batches : List (List Hash)
  clock : Time
  past : List (Time × Db)
  concerned : List (Time × Hash)

/-- A run begins at `t`. -/
def Timed.init (d : Db) (t : Time) : Timed := ⟨State.init d, [], t, [], []⟩

def Timed.db (x : Timed) : Db := x.state.db

/-- What can happen: an action of a transaction or a collector, `gc_find_unreferenced` for a caller,
or `gc_delete_unreferenced` for one of the batches that were found. -/
inductive Deed
  | act (a : Act)
  | find (olderThan : Time) (limit : Int)
  | delete (k : Nat)

/-- The action reads the clock at `t` wherever it reads it, and is none that deletes rows without a
selection. -/
def stamped (t : Time) : Act → Bool
  | .txn (.start (.commit (.file a))) => a.now == t
  | .txn (.start (.ensureBlock _ _ _ now)) => now == t
  | .txn (.start (.deleteBlocks _)) => false
  | .txn (.start (.gcDeleteUnreferenced _)) => false
  | .launch (.sweepOrphanedBlocks _ now _) => now == t
  | .advance _ (.ok now) => now == t
  | _ => true

/-- `gc_find_unreferenced`. -/
def gcFindUnreferenced (d : Db) (now olderThan : Time) (limit : Int) : List Hash :=
  (d.orphans (now - olderThan) (min (max limit 1) 10000)).map BlockInfo.blockHash

/-- The blocks whose references the action concerns, where it commits a call. -/
def Timed.concerns (x : Timed) : Deed → List Hash
  | .act (.txn (.commit i)) => (x.state.pool.txns[i]?).elim [] fun u => Gc.concerns u.call x.db
  | _ => []

/-- The database of before was in force until `t`. -/
def Timed.record (x : Timed) (t : Time) (a : Deed) (s : State) (batches : List (List Hash)) :
    Timed :=
  ⟨s, batches, t, (t, x.db) :: x.past, (x.concerns a).map (fun h => (t, h)) ++ x.concerned⟩

/-- One action at its moment. -/
def Timed.step (x : Timed) : Time × Deed → Option Timed
  | (t, a) =>
    if t < x.clock then none
    else
      match a with
      | .act b =>
        if stamped t b then (x.state.step b).map fun s => x.record t a s x.batches else none
      | .find olderThan limit =>
        some (x.record t a x.state (x.batches ++ [gcFindUnreferenced x.db t olderThan limit]))
      | .delete k =>
        (x.batches[k]?).bind fun batch =>
          (x.state.step (.txn (.start (.gcDeleteUnreferenced batch)))).map fun s =>
            x.record t a s (x.batches.eraseIdx k)

/-- The actions that are possible, and the states they lead to. -/
inductive Timed.Does (x : Timed) : Time × Deed → Timed → Prop
  | act {t : Time} {a : Act} {s : State} : x.clock ≤ t → stamped t a = true →
      Moves x.state a s → Does x (t, .act a) (x.record t (.act a) s x.batches)
  | find {t : Time} (olderThan : Time) (limit : Int) : x.clock ≤ t →
      Does x (t, .find olderThan limit) (x.record t (.find olderThan limit) x.state
        (x.batches ++ [gcFindUnreferenced x.db t olderThan limit]))
  | delete {t : Time} {k : Nat} {batch : List Hash} {s : State} : x.clock ≤ t →
      x.batches[k]? = some batch →
      Moves x.state (.txn (.start (.gcDeleteUnreferenced batch))) s →
      Does x (t, .delete k) (x.record t (.delete k) s (x.batches.eraseIdx k))

variable {x x' : Timed} {t W : Time} {a : Deed} {h : Hash}

theorem Timed.does_of_step (hstep : x.step (t, a) = some x') : x.Does (t, a) x' := by
  dsimp only [Timed.step] at hstep
  split at hstep
  · cases hstep
  · next hlt =>
    have hle : x.clock ≤ t := not_lt.1 hlt
    cases a with
    | act a =>
      dsimp only at hstep
      split at hstep
      · next hstamp =>
        obtain ⟨s, hs, rfl⟩ := Option.map_eq_some_iff.1 hstep
        exact .act hle hstamp (moves_of_step hs)
      · cases hstep
    | find olderThan limit =>
      cases hstep
      exact .find olderThan limit hle
    | delete k =>
      obtain ⟨batch, hk, hstep⟩ := Option.bind_eq_some_iff.1 hstep
      obtain ⟨s, hs, rfl⟩ := Option.map_eq_some_iff.1 hstep
      exact .delete hle hk (moves_of_step hs)

/-! ## The condition -/

/-- The block has had no reference since `t - W`: not now, and in no database that was in force at
some moment after that. -/
def Dormant (W t : Time) (x : Timed) (h : Hash) : Prop :=
  x.db.refCount h = 0 ∧ ∀ e ∈ x.past, t - W < e.1 → e.2.refCount h = 0

instance : Decidable (Dormant W t x h) := inferInstanceAs (Decidable (_ ∧ _))

/-- A transaction that can delete the row of the block is under way. -/
def Erasing (s : State) (h : Hash) : Prop :=
  ∃ (i : Nat) (u : Tx Db DbLock Err Call Res) (p : Stmt Res), s.pool.txns[i]? = some u ∧
    u.phase = .running p ∧ h ∈ erases u.call

/-- A tombstone of the block waits, a collector or a caller of `gc_find_unreferenced` has selected
it, or a transaction is about to delete its row. -/
def Selected (x : Timed) (h : Hash) : Prop :=
  (∃ batch ∈ x.batches, h ∈ batch) ∨ Marked selects x.state h ∨ Erasing x.state h

/-- The creation time before which a query takes a block, if the action is a query. -/
def cutoff? (x : Timed) : Time × Deed → Option Time
  | (t, .find olderThan _) => some (t - olderThan)
  | (_, .act (.advance i (.ok now))) =>
    match x.state.procs[i]? with
    | some (.running (.call (.findOrphans windowSeconds _) _)) =>
      some (now - windowSeconds * 10 ^ 9)
    | _ => none
  | _ => none

/-- No commit within the window has concerned an unreferenced block from before the cutoff. -/
def Ripe (W t : Time) (x : Timed) (cutoff : Time) : Prop :=
  ∀ e ∈ x.db.blocks.entries, e.2.refCount = 0 → e.2.createdAt < cutoff →
    ∀ f ∈ x.concerned, f.2 = e.1 → f.1 ≤ t - W

instance {cutoff : Time} : Decidable (Ripe W t x cutoff) :=
  inferInstanceAs (Decidable (∀ e ∈ _, _))

/-- The action is none of `EnsureBlock`, queries come a window after the last commit that concerns
what they select, and no transaction that refers to a selected block commits. -/
structure Heeds (W : Time) (x : Timed) (a : Time × Deed) : Prop where
  plain : ∀ h tenant size now, a.2 ≠ .act (.txn (.start (.ensureBlock h tenant size now)))
  ripe : ∀ c, cutoff? x a = some c → Ripe W a.1 x c
  apart : ∀ i u, a.2 = .act (.txn (.commit i)) → x.state.pool.txns[i]? = some u →
    ∀ h ∈ adds u.call, ¬ Selected x h

/-! ## Steps -/

/-- A deletion of rows is started by a collector that has selected them, or from outside. -/
theorem Moves.erasing {a : Act} (hm : Moves s a s') (he : Erasing s' h) :
    Erasing s h ∨ Marked selects s h ∨ ∃ c, a = .txn (.start c) ∧ h ∈ erases c := by
  obtain ⟨i, u, p, hi, hp, hh⟩ := he
  rcases hm.does with hpool | ⟨b, rfl, hd⟩ | ⟨hashes, hd, q, hq, next, hprog⟩
  · exact .inl ⟨i, u, p, hpool ▸ hi, hp, hh⟩
  · rcases hd.call_of hi with ⟨u₀, hi₀, hcall, hrun⟩ | rfl
    · obtain ⟨p₀, hp₀⟩ := hrun p hp
      exact .inl ⟨i, u₀, p₀, hi₀, hp₀, hcall ▸ hh⟩
    · exact .inr (.inr ⟨u.call, rfl, hh⟩)
  · rcases hd.call_of hi with ⟨u₀, hi₀, hcall, hrun⟩ | hstart
    · obtain ⟨p₀, hp₀⟩ := hrun p hp
      exact .inl ⟨i, u₀, p₀, hi₀, hp₀, hcall ▸ hh⟩
    · obtain hcall : Call.deleteBlocks hashes = u.call := Action.start.inj hstart
      rw [← hcall] at hh
      exact .inr (.inl (.inr ⟨q, hq, hprog ▸ .now hh⟩))

/-- No deletion of rows is started from outside. -/
theorem erases_of_stamped (hs : stamped t (.txn (.start c)) = true) : h ∉ erases c := by
  cases c with
  | deleteBlocks hashes => cases hs
  | gcDeleteUnreferenced batch => cases hs
  | _ => exact List.not_mem_nil

/-- An action moves time forward and keeps the database of before. -/
theorem Timed.Does.record (hd : x.Does (t, a) x') :
    x.clock ≤ t ∧ x'.clock = t ∧ x'.past = (t, x.db) :: x.past ∧
      x'.concerned = (x.concerns a).map (fun h => (t, h)) ++ x.concerned := by
  cases hd with
  | act hle _ _ => exact ⟨hle, rfl, rfl, rfl⟩
  | find olderThan limit hle => exact ⟨hle, rfl, rfl, rfl⟩
  | delete hle _ _ => exact ⟨hle, rfl, rfl, rfl⟩

/-- What an action does to transactions and collectors, it does as one of their own actions. -/
theorem Timed.Does.moves (hd : x.Does (t, a) x') : x'.state = x.state ∨
    ∃ b, Moves x.state b x'.state ∧
      (a = .act b ∨ ∃ batch, b = .txn (.start (.gcDeleteUnreferenced batch))) := by
  cases hd with
  | act _ _ hm => exact .inr ⟨_, hm, .inl rfl⟩
  | find olderThan limit _ => exact .inl rfl
  | delete _ _ hm => exact .inr ⟨_, hm, .inr ⟨_, rfl⟩⟩

/-- The database changes by commits only. -/
theorem Timed.Does.db_eq (hd : x.Does (t, a) x') : x'.db = x.db ∨ ∃ i c held eff r,
    a = .act (.txn (.commit i)) ∧
      x.state.pool.txns[i]? = some ⟨c, held, eff, .running (.ret r)⟩ ∧ x'.db = eff x.db := by
  rcases hd.moves with hs | ⟨b, hm, hb⟩
  · exact .inl (by rw [Timed.db, Timed.db, hs])
  · rcases hm.db_eq with heq | ⟨i, c, held, eff, r, hi, hu, heq⟩
    · exact .inl heq
    · subst hi
      rcases hb with hb | ⟨batch, hb⟩
      · exact .inr ⟨i, c, held, eff, r, hb, hu, heq⟩
      · cases hb

/-- What a query confirms is a row without references from before its cutoff. -/
theorem found_of_confirms (hs : stamped t b = true) (hc : Confirms selects x.state h b) :
    ∃ c, cutoff? x (t, .act b) = some c ∧
      ∃ e ∈ x.db.blocks.entries, e.1 = h ∧ e.2.refCount = 0 ∧ e.2.createdAt < c := by
  cases b with
  | advance i o =>
    obtain ⟨c, next, hi, hask, hk⟩ := hc
    cases c with
    | findOrphans w l =>
      obtain ⟨bs, hbs, hmem⟩ := hk
      cases o with
      | ok now =>
        cases hbs
        refine ⟨now - w * 10 ^ 9, ?_, mem_orphans hmem⟩
        simp only [cutoff?, hi]
      | error applied text => cases hbs
    | _ => exact hask.elim
  | _ => exact hc.elim

/-- **A block becomes selected by a query that finds it**, and in no other way. -/
theorem Timed.Does.selected (hg : ∀ q ∈ x.state.procs, selects.Guarded q.prog)
    (hd : x.Does (t, a) x') (hsel : Selected x' h) : Selected x h ∨
      ∃ c, cutoff? x (t, a) = some c ∧
        ∃ e ∈ x.db.blocks.entries, e.1 = h ∧ e.2.refCount = 0 ∧ e.2.createdAt < c := by
  cases hd with
  | act _ hstamp hm =>
    rcases hsel with hbatch | hmark | herase
    · exact .inl (.inl hbatch)
    · rcases hm.marked selects_followed hg hmark with hmark | hc
      · exact .inl (.inr (.inl hmark))
      · exact .inr (found_of_confirms hstamp hc)
    · rcases hm.erasing herase with herase | hmark | ⟨c, rfl, hc⟩
      · exact .inl (.inr (.inr herase))
      · exact .inl (.inr (.inl hmark))
      · exact absurd hc (erases_of_stamped hstamp)
  | find olderThan limit _ =>
    rcases hsel with ⟨batch, hbatch, hh⟩ | hrest
    · rcases List.mem_append.1 hbatch with hbatch | hbatch
      · exact .inl (.inl ⟨batch, hbatch, hh⟩)
      · obtain rfl := List.mem_singleton.1 hbatch
        exact .inr ⟨_, rfl, mem_orphans hh⟩
    · exact .inl (.inr hrest)
  | @delete t k batch s _ hk hm =>
    have hbatch := List.mem_of_getElem? hk
    rcases hsel with ⟨batch', hbatch', hh⟩ | hmark | herase
    · exact .inl (.inl ⟨batch', List.mem_of_mem_eraseIdx hbatch', hh⟩)
    · rcases hm.marked selects_followed hg hmark with hmark | hc
      · exact .inl (.inr (.inl hmark))
      · exact hc.elim
    · rcases hm.erasing herase with herase | hmark | ⟨c, hc, hh⟩
      · exact .inl (.inr (.inr herase))
      · exact .inl (.inr (.inl hmark))
      · cases hc
        exact .inl (.inl ⟨batch, hbatch, hh⟩)

/-- A count moves only where a commit concerns its block. -/
theorem Timed.Does.refCount_eq (hc : counting.Good x.state.pool)
    (hc' : counting.Good x'.state.pool) (hb : Sys.Bounded Touches x.state.pool)
    (hd : x.Does (t, a) x') (hh : h ∉ x.concerns a) : x'.db.refCount h = x.db.refCount h := by
  rcases hd.db_eq with heq | ⟨i, c, held, eff, r, rfl, hi, heq⟩
  · rw [heq]
  · rw [Timed.concerns, hi, Option.elim_some] at hh
    have ht : Touches c x.db x'.db := heq ▸ (hb i _ hi).1 x.db
    exact ht.refCount_eq hc.inv hc'.inv hh

/-! ## The invariant -/

/-- Since the database `e` of the past, the count of a block is what it was there, unless a commit
has concerned the block. -/
structure Steady (x : Timed) (e : Time × Db) : Prop where
  until_le : e.1 ≤ x.clock
  eq : ∀ h, (∀ f ∈ x.concerned, f.2 = h → f.1 < e.1) → e.2.refCount h = x.db.refCount h

/-- **The invariant**: what is selected has had no reference for the window. -/
structure Calm (W : Time) (x : Timed) : Prop where
  counted : counting.Good x.state.pool
  bounded : Sys.Bounded Touches x.state.pool
  guarded : ∀ q ∈ x.state.procs, selects.Guarded q.prog
  steady : ∀ e ∈ x.past, Steady x e
  dormant : ∀ h, Selected x h → Dormant W x.clock x h

/-- What has been steady stays so, and the database of before is steady. -/
theorem Calm.steady_does (hx : Calm W x) (hc' : counting.Good x'.state.pool)
    (hd : x.Does (t, a) x') : ∀ e ∈ x'.past, Steady x' e := by
  obtain ⟨hle, hclock, hpast, hconcerned⟩ := hd.record
  -- what is concerned now is concerned at `t`, so not before the end of what was in force then
  have hkept : ∀ {h : Hash} {t' : Time}, t' ≤ t → (∀ f ∈ x'.concerned, f.2 = h → f.1 < t') →
      x.db.refCount h = x'.db.refCount h := by
    intro h t' ht' hall
    refine (hd.refCount_eq hx.counted hc' hx.bounded fun hmem => ?_).symm
    refine not_lt_of_ge ht' (hall (t, h) ?_ rfl)
    rw [hconcerned]
    exact List.mem_append_left _ (List.mem_map_of_mem hmem)
  rw [hpast]
  refine List.forall_mem_cons.2 ⟨⟨hclock.ge, fun h => hkept le_rfl⟩, fun e he => ?_⟩
  obtain ⟨huntil, heq⟩ := hx.steady e he
  refine ⟨hclock ▸ huntil.trans hle, fun h hall => ?_⟩
  refine (heq h fun f hf => hall f ?_).trans (hkept (huntil.trans hle) hall)
  rw [hconcerned]
  exact List.mem_append_right _ hf

/-- **A block at 0 that no commit has concerned within the window** was at 0 all the time. -/
theorem Dormant.of_ripe (hs : ∀ e ∈ x.past, Steady x e) (hripe : Ripe W t x cutoff)
    (he : e ∈ x.db.blocks.entries) (hzero : e.2.refCount = 0) (hold : e.2.createdAt < cutoff) :
    Dormant W t x e.1 := by
  have hcount : x.db.refCount e.1 = 0 := by
    rw [refCount, refCount?, Table.mem_entries.1 he, Option.map_some, Option.getD_some, hzero]
  refine ⟨hcount, fun p hp hlt => ?_⟩
  refine ((hs p hp).eq e.1 fun f hf heq => ?_).trans hcount
  exact (hripe e he hzero hold f hf heq).trans_lt hlt

/-- Later the window reaches less far back. -/
theorem Dormant.later (hx : Dormant W t x h) (hle : t ≤ t') : Dormant W t' x h :=
  ⟨hx.1, fun e he hlt => hx.2 e he (lt_of_le_of_lt (sub_le_sub_right hle W) hlt)⟩

/-- A dormant block that stays unreferenced stays dormant. -/
theorem Dormant.does (hx : Dormant W t x h) (hd : x.Does (t, a) x')
    (hzero : x'.db.refCount h = 0) : Dormant W t x' h := by
  refine ⟨hzero, fun e he hlt => ?_⟩
  rw [hd.record.2.2.1] at he
  rcases List.mem_cons.1 he with rfl | he
  · exact hx.1
  · exact hx.2 e he hlt

theorem calm_init (W t : Time) (tenants : Table Uuid TenantRow) (nodes : Table Uuid NodeRow)
    (sessions : Table Uuid SessionRow) :
    Calm W (.init (Db.seed tenants nodes sessions) t) where
  counted := Protocol.Good.init (Cas.Counted.seed tenants nodes sessions)
  bounded := Sys.bounded_init _
  guarded := by simp [Timed.init, State.init]
  steady := by simp [Timed.init]
  dormant := by
    intro h hsel
    rcases hsel with ⟨batch, hb, -⟩ | (⟨i, e, hi, -⟩ | ⟨q, hq, -⟩) | ⟨i, u, p, hi, -⟩
    · simp [Timed.init] at hb
    · simp [Timed.init, State.init] at hi
    · simp [Timed.init, State.init] at hq
    · simp [Timed.init, State.init, Sys.init] at hi

/-- What an action starts is no `EnsureBlock`. -/
theorem Heeds.start_ne (hok : Heeds W x (t, a))
    (hb : a = .act b ∨ ∃ batch, b = .txn (.start (.gcDeleteUnreferenced batch)))
    (hc : b = .txn (.start c) ∨ ∃ hashes, c = .deleteBlocks hashes) :
    ∀ h tenant size now, c ≠ .ensureBlock h tenant size now := by
  rintro h tenant size now rfl
  rcases hc with rfl | ⟨hashes, hc⟩
  · rcases hb with rfl | ⟨batch, hb⟩
    · exact hok.plain h tenant size now rfl
    · cases hb
  · cases hc

/-- **One action** keeps the invariant, if it heeds the window. -/
theorem Calm.step (hx : Calm W x) (hok : Heeds W x e) (hstep : x.step e = some x') :
    Calm W x' := by
  obtain ⟨t, a⟩ := e
  have hd := Timed.does_of_step hstep
  obtain ⟨hle, hclock, -⟩ := hd.record
  have hrest : counting.Good x'.state.pool ∧ Sys.Bounded Touches x'.state.pool ∧
      ∀ q ∈ x'.state.procs, selects.Guarded q.prog := by
    rcases hd.moves with hs | ⟨b, hm, hb⟩
    · rw [hs]
      exact ⟨hx.counted, hx.bounded, hx.guarded⟩
    · exact ⟨hm.good (fun c hc => call_commits (hok.start_ne hb hc)) (fun _ => id) hx.counted,
        hm.bounded Touches.refl Touches.trans body_touches hx.bounded,
        hm.guarded selects_followed hx.guarded⟩
  obtain ⟨hcounted, hbounded, hguarded⟩ := hrest
  refine ⟨hcounted, hbounded, hguarded, hx.steady_does hcounted hd, fun h hsel => ?_⟩
  rw [hclock]
  rcases hd.selected hx.guarded hsel with hsel | ⟨c, hc, e, he, rfl, hzero, hold⟩
  · have hdormant := (hx.dormant h hsel).later hle
    refine hdormant.does hd ?_
    rcases hd.db_eq with heq | ⟨i, c, held, eff, r, rfl, hi, heq⟩
    · rw [heq]
      exact hdormant.1
    · -- a transaction that refers to the block does not commit
      refine le_antisymm ?_ ((Int.natCast_nonneg _).trans (hcounted.inv.manifestCount_le h))
      rw [heq]
      refine ((hx.bounded i _ hi).1 _).refs h (fun hmem => ?_) hdormant.1.le
      exact hok.apart i _ rfl hi h hmem hsel
  · have hdormant := Dormant.of_ripe hx.steady (hok.ripe c hc) he hzero hold
    refine hdormant.does hd ?_
    rcases hd.db_eq with heq | ⟨i, c', held, eff, r, rfl, -⟩
    · rw [heq]
      exact hdormant.1
    · cases hc

/-! ## Deletions -/

/-- The action deletes the block: its row goes, or its blob. -/
def Deletes (x x' : Timed) (h : Hash) : Prop :=
  (hasBlock h x.db = true ∧ hasBlock h x'.db = false) ∨
    ∃ c, x'.state.deletions = x.state.deletions ++ [(h, c)]

/-- Only selected blocks are deleted. -/
theorem Calm.selected_of_deletes (hx : Calm W x) (hd : x.Does (t, a) x')
    (hdel : Deletes x x' h) : Selected x h := by
  rcases hdel with ⟨hrow, hgone⟩ | ⟨c, hblob⟩
  · rcases hd.db_eq with heq | ⟨i, c, held, eff, r, rfl, hi, heq⟩
    · rw [heq, hrow] at hgone
      cases hgone
    · by_cases hh : h ∈ erases c
      · exact .inr (.inr ⟨i, _, _, hi, rfl, hh⟩)
      · have hkept := ((hx.bounded i _ hi).1 x.db).rows h hh hrow
        rw [heq] at hgone
        cases hkept.symm.trans hgone
  · have hneq : x'.state.deletions ≠ x.state.deletions := by
      simp [hblob]
    rcases hd.moves with hs | ⟨b, hm, -⟩
    · exact absurd (by rw [hs]) hneq
    · rcases hm.deletions selects_followed with heq | ⟨h', hmark, heq⟩
      · exact absurd heq hneq
      · rw [heq] at hblob
        obtain ⟨rfl, -⟩ := Prod.mk.inj (List.singleton_inj.1 (List.append_cancel_left hblob))
        exact .inr (.inl hmark)

/-! ## Taking turns -/

/-- No block is selected. -/
def Timed.idle (x : Timed) : Bool :=
  x.batches.isEmpty && x.state.idle &&
    x.state.pool.txns.all fun u => u.phase.isOver || (erases u.call).isEmpty

/-- No `EnsureBlock`, queries a window after the last commit that concerns what they select, and
references committed only while no block is selected. -/
def heeds (W : Time) (x : Timed) (a : Time × Deed) : Bool :=
  (match a.2 with
    | .act (.txn (.start (.ensureBlock ..))) => false
    | _ => true) &&
    ((cutoff? x a).all fun c => decide (Ripe W a.1 x c)) &&
    (x.idle || match a.2 with
      | .act b => addsNothing x.state b
      | _ => true)

/-- While nothing is under way no block is selected. -/
theorem not_selected_of_idle (hx : x.idle = true) : ¬ Selected x h := by
  obtain ⟨hx, htxns⟩ := Bool.and_eq_true_iff.1 hx
  obtain ⟨hbatches, hstate⟩ := Bool.and_eq_true_iff.1 hx
  intro hsel
  rcases hsel with ⟨batch, hb, -⟩ | hmark | ⟨i, u, p, hi, hp, hh⟩
  · rw [List.isEmpty_iff.1 hbatches] at hb
    cases hb
  · exact not_marked_of_idle hstate hmark
  · have hover := List.all_eq_true.1 htxns u (List.mem_of_getElem? hi)
    rw [hp, Phase.isOver, Bool.false_or, List.isEmpty_iff] at hover
    rw [hover] at hh
    cases hh

theorem heeds_of_test (hx : heeds W x e = true) : Heeds W x e := by
  obtain ⟨hx, hturn⟩ := Bool.and_eq_true_iff.1 hx
  obtain ⟨hplain, hripe⟩ := Bool.and_eq_true_iff.1 hx
  constructor
  · intro h tenant size now ha
    rw [ha] at hplain
    cases hplain
  · intro c hc
    rw [hc, Option.all_some] at hripe
    exact of_decide_eq_true hripe
  · intro i u ha hi h hh
    rcases Bool.or_eq_true_iff.1 hturn with hidle | hnothing
    · exact not_selected_of_idle hidle
    · rw [ha] at hnothing
      simp only [addsNothing, hi, Option.all_some, List.isEmpty_iff] at hnothing
      rw [hnothing] at hh
      cases hh

/-! ## The window -/

/-- **Blocks are deleted after a window without references** in a run of commits, version deletions
and sweeps in which no commit refers to a block, or deletes a version that names it, within the
window before a query that selects the block, and no transaction that refers to a selected block
commits: an action that deletes a block at `t` finds its count 0, and it was 0 in every database in
force at some moment since `t - W`. -/
theorem deleted_after_window {tenants : Table Uuid TenantRow} {nodes : Table Uuid NodeRow}
    {sessions : Table Uuid SessionRow} {t₀ : Time} {acts : List (Time × Deed)}
    (hok : Run.Throughout Timed.step (Heeds W) (.init (Db.seed tenants nodes sessions) t₀) acts)
    (hrun : Run.run Timed.step (.init (Db.seed tenants nodes sessions) t₀) acts = some x)
    (hstep : x.step (t, a) = some x') (hdel : Deletes x x' h) : Dormant W t x h := by
  have hx : Calm W x := hok.run_induction (fun hI ha hs => hI.step ha hs)
    (calm_init W t₀ tenants nodes sessions) hrun
  have hd := Timed.does_of_step hstep
  exact (hx.dormant h (hx.selected_of_deletes hd hdel)).later hd.record.1

/-- The worker finds the block, deletes its blob and is about to delete its row. -/
def collectAt (t : Time) : List Act := List.flatten [
  [.launch (.sweep 1000 true)], List.replicate 3 (.advance 0 (.ok t)),
  List.replicate 3 (.txn (.exec 2))]

/-- The worker's commit deletes the row, on the eighth day. -/
theorem collected_of_run (acts : List (Time × Deed))
    (hend : (Run.run Timed.step (.init twoSessions 0) acts).map (fun x =>
      (hasBlock 7 x.db, (x.step (dayEight, .act (.txn (.commit 2)))).map fun x' =>
        hasBlock 7 x'.db)) = some (true, some false)) :
    ∃ x x', Run.run Timed.step (.init twoSessions 0) acts = some x ∧
      x.step (dayEight, .act (.txn (.commit 2))) = some x' ∧ Deletes x x' 7 := by
  obtain ⟨x, hrun, hrow, hlast⟩ := exists_of_map_eq_pair hend
  obtain ⟨x', hstep, hgone⟩ := Option.map_eq_some_iff.1 hlast
  exact ⟨x, x', hrun, hstep, .inl ⟨hrow, hgone⟩⟩

/-- A file is committed and its version deleted on the first day, and its block is collected on the
eighth. -/
def quarantined : List (Time × Deed) :=
  commitAndDelete.map (fun a => (10, .act a)) ++
    (collectAt dayEight).map fun a => (dayEight, .act a)

theorem deleted_after_window_quarantined :
    ∃ x x', Run.run Timed.step (.init twoSessions 0) quarantined = some x ∧
      x.step (dayEight, .act (.txn (.commit 2))) = some x' ∧ Deletes x x' 7 ∧
      Dormant (gcSafetyWindow * 10 ^ 9) dayEight x 7 := by
  have hok : Run.throughout Timed.step (heeds (gcSafetyWindow * 10 ^ 9)) (.init twoSessions 0)
      quarantined = true := by decide +kernel
  obtain ⟨x, x', hrun, hstep, hdel⟩ := collected_of_run quarantined (by decide +kernel)
  exact ⟨x, x', hrun, hstep, hdel,
    deleted_after_window (.of_throughout (fun _ _ => heeds_of_test) hok) hrun hstep hdel⟩

/-- The same, but the version is deleted on the eighth day, just before the collection. -/
def dereferenced : List (Time × Deed) :=
  (commitAndDelete.take 17).map (fun a => (10, .act a)) ++
    (commitAndDelete.drop 17 ++ collectAt dayEight).map fun a => (dayEight, .act a)

/-- The block is deleted on the day it loses its last reference. -/
theorem deleted_within_window_dereferenced :
    ∃ x x', Run.run Timed.step (.init twoSessions 0) dereferenced = some x ∧
      x.step (dayEight, .act (.txn (.commit 2))) = some x' ∧ Deletes x x' 7 ∧
      ∃ e ∈ x.past, dayEight - gcSafetyWindow * 10 ^ 9 < e.1 ∧ e.2.refCount 7 = 1 := by
  obtain ⟨x, x', hrun, hstep, hdel⟩ := collected_of_run dereferenced (by decide +kernel)
  have hpast : (Run.run Timed.step (.init twoSessions 0) dereferenced).map (fun x =>
      decide (∃ e ∈ x.past, dayEight - gcSafetyWindow * 10 ^ 9 < e.1 ∧ e.2.refCount 7 = 1)) =
      some true := by decide +kernel
  rw [hrun, Option.map_some] at hpast
  exact ⟨x, x', hrun, hstep, hdel, of_decide_eq_true (Option.some.inj hpast)⟩

end Aegis.Gc
