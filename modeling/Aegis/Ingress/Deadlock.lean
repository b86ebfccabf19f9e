import Aegis.Ingress.Store

/-!
# Commits that wait for each other

`CommitFile` locks its session and its node, then passes over the blocks of the commit twice. The
INSERT into `cas_blocks` waits for whoever is writing the row of a block and keeps the rows it
inserts locked; the trigger `manifest_block_added` then locks the row of every block. Both passes go
in the order of the block list, so commits of different files whose lists share blocks in opposite
orders can wait for each other (`commits_deadlock`).

If there is one order of the hashes in which every list ascends, repetitions apart, no cycle arises
(`commitFile_not_deadlocked`). The two passes are kept apart in the ranks: a commit that has got to
its triggers finds all its blocks committed, or has inserted them itself, so it never waits for the
first pass of another.
-/

namespace Aegis.Ingress

open Db Stmt Cas Txn Txn.Prog Txn.Protocol

/-! ## Ranks of locks -/

/-- How far `CommitFile` is when it takes a lock that others may wait for. -/
def stage : DbLock → Nat
  | .row (.node _) _ => 1
  | .row (.version _) _ => 2
  | .row (.uqNodeVersion _ _) _ => 2
  | .row (.block _) .noKeyUpdate => 4
  | .row (.block _) _ => 3
  | _ => 0

/-- The hashes in the order of the list. -/
def height (order : Hash → Nat) : DbLock → Nat
  | .row (.block h) _ => order h
  | _ => 0

/-- The rank of a lock: stages first, then the order of the hashes. -/
def rank (order : Hash → Nat) (l : DbLock) : Nat ×ₗ Nat := toLex (stage l, height order l)

variable {l : DbLock}

theorem rank_lt_of_stage (h : stage l < stage l') : rank order l < rank order l' :=
  Prod.Lex.toLex_lt_toLex.2 (.inl h)

theorem rank_lt_of_height (h : stage l = stage l') (h' : height order l < height order l') :
    rank order l < rank order l' :=
  Prod.Lex.toLex_lt_toLex.2 (.inr ⟨h, h'⟩)

/-- Only the rows of blocks are locked at the last two stages. -/
theorem stage_lt_or_block (l : DbLock) : stage l < 3 ∨ ∃ h m, l = .row (.block h) m := by
  cases l with
  | row k m =>
    cases k with
    | block h => exact .inr ⟨h, m, rfl⟩
    | _ => exact .inl (by simp [stage])
  | readPath n => exact .inl (by simp [stage])
  | rewritePath n => exact .inl (by simp [stage])

theorem three_le_stage_block (h : Hash) (m : LockMode) : 3 ≤ stage (.row (.block h) m) := by
  cases m with
  | keyShare => exact le_rfl
  | noKeyUpdate => exact Nat.le_succ 3
  | update => exact le_rfl

/-- The block list ascends in the order, repetitions apart. -/
def Ascending (order : Hash → Nat) (blocks : List BlockMeta) : Prop :=
  ∀ done b rest, done ++ b :: rest = blocks →
    b.blockHash ∈ done.map BlockMeta.blockHash ∨
      ∀ c ∈ done, order c.blockHash < order b.blockHash

/-! ## What is held and what is waited for -/

/-- What holds of the locks of a commit whenever it waits. -/
structure Tidy (held : List DbLock) (d : Db) : Prop where
  tenants : ∀ t m, .row (.tenant t) m ∈ held → m = .keyShare
  manifests : ∀ v i m, .row (.manifest v i) m ∈ held → .row (.version v) .update ∈ held
  fresh : ∀ h, .row (.block h) .update ∈ held → hasBlock h d = false

/-- What a commit waits for: a lock that nobody else can hold, or one of a higher rank than what it
holds. -/
inductive InOrder (order : Hash → Nat) (held : List DbLock) (d : Db) : DbLock → Prop
  | own {k : RowKey} {m : LockMode} : .row k .update ∈ held → InOrder order held d (.row k m)
  | session {s : Uuid} {m : LockMode} : held = [] → InOrder order held d (.row (.session s) m)
  | node {n : Uuid} {m : LockMode} : (∀ l ∈ held, stage l < 1) →
    InOrder order held d (.row (.node n) m)
  | version {v : Uuid} {m : LockMode} : (∀ l ∈ held, stage l < 2) →
    InOrder order held d (.row (.version v) m)
  | index {n : Uuid} {i : Int} {m : LockMode} : (∀ l ∈ held, stage l < 2) →
    InOrder order held d (.row (.uqNodeVersion n i) m)
  | tenant {t : Uuid} : InOrder order held d (.row (.tenant t) .keyShare)
  | manifest {v : Uuid} {i : Int} {m : LockMode} : .row (.version v) .update ∈ held →
    InOrder order held d (.row (.manifest v i) m)
  /-- A new block. -/
  | inserted {h : Hash} {m : LockMode} :
    (∀ g m, .row (.block g) m ∈ held → m = .update ∧ order g < order h) →
    InOrder order held d (.row (.block h) m)
  /-- A reference to a block that is there. -/
  | shared {h : Hash} : hasBlock h d = true → InOrder order held d (.row (.block h) .keyShare)
  /-- A block that has been counted before. -/
  | again {h : Hash} : .row (.block h) .noKeyUpdate ∈ held →
    InOrder order held d (.row (.block h) .noKeyUpdate)
  /-- A block that is there and is counted, or is found in the first pass. -/
  | counted {h : Hash} : hasBlock h d = true →
    (∀ g, .row (.block g) .noKeyUpdate ∈ held → order g < order h) →
    InOrder order held d (.row (.block h) .noKeyUpdate)

/-- **The ranks increase**: the lock that a commit waits for, held by another, ranks above all it
holds itself. -/
theorem InOrder.rank_lt (h : InOrder order held d l) (htidy : Tidy held' d) (hm : m ∈ held)
    (hm' : m' ∈ held') (hconf : Lock.conflicts m' l = true)
    (hapart : ∀ a ∈ held, ∀ b ∈ held', Lock.conflicts a b = false) :
    rank order m < rank order m' := by
  obtain ⟨k, m₀, rfl⟩ : ∃ k m, l = .row k m := by
    cases h <;> exact ⟨_, _, rfl⟩
  obtain ⟨m₁, rfl, hm₁⟩ := DbLock.eq_row_of_conflicts hconf
  have hfree : ∀ {k m}, .row k .update ∈ held → .row k m ∉ held' := fun ha hb => by
    have hno := hapart _ ha _ hb
    rw [DbLock.conflicts_update] at hno
    cases hno
  cases h with
  | own hown => exact absurd hm' (hfree hown)
  | session hnil =>
    rw [hnil] at hm
    cases hm
  | node hstage => exact rank_lt_of_stage (hstage m hm)
  | version hstage => exact rank_lt_of_stage (hstage m hm)
  | index hstage => exact rank_lt_of_stage (hstage m hm)
  | tenant =>
    cases htidy.tenants _ _ hm'
    cases hm₁
  | manifest hversion => exact absurd (htidy.manifests _ _ _ hm') (hfree hversion)
  | @inserted h₀ _ hblocks =>
    rcases stage_lt_or_block m with hlow | ⟨g, m₂, rfl⟩
    · exact rank_lt_of_stage (hlow.trans_le (three_le_stage_block h₀ m₁))
    · obtain ⟨rfl, hlt⟩ := hblocks g m₂ hm
      cases m₁ with
      | keyShare => exact rank_lt_of_height rfl hlt
      | noKeyUpdate => exact rank_lt_of_stage (Nat.lt_succ_self 3)
      | update => exact rank_lt_of_height rfl hlt
  | shared hthere =>
    cases m₁ with
    | update =>
      rw [htidy.fresh _ hm'] at hthere
      cases hthere
    | noKeyUpdate => cases hm₁
    | keyShare => cases hm₁
  | again hown =>
    have hno := hapart _ hown _ hm'
    rw [Lock.symm, hconf] at hno
    cases hno
  | counted hthere hbelow =>
    cases m₁ with
    | update =>
      rw [htidy.fresh _ hm'] at hthere
      cases hthere
    | keyShare => cases hm₁
    | noKeyUpdate =>
      rcases stage_lt_or_block m with hlow | ⟨g, m₂, rfl⟩
      · exact rank_lt_of_stage (hlow.trans (Nat.lt_succ_self 3))
      · cases m₂ with
        | noKeyUpdate => exact rank_lt_of_height rfl (hbelow g hm)
        | keyShare => exact rank_lt_of_stage (Nat.lt_succ_self 3)
        | update => exact rank_lt_of_stage (Nat.lt_succ_self 3)

/-! ## What a commit writes -/

/-- The writes of a commit leave the nodes alone, and add only blocks that it has locked. -/
structure Adds (held : List DbLock) (eff : Db → Db) : Prop where
  nodes : ∀ d, (eff d).nodes = d.nodes
  grows : ∀ d h, hasBlock h d = true → hasBlock h (eff d) = true
  owned : ∀ d h, hasBlock h (eff d) = true →
    hasBlock h d = true ∨ .row (.block h) .update ∈ held

/-- What is relied on: the nodes stay, blocks stay, and nobody adds a block that another is
inserting. -/
def registry (nodes : Table Uuid NodeRow) : Protocol Db DbLock Err CommitFile (Uuid × Int) where
  Inv w := w.db.nodes = nodes
  Stable l w w' := (∀ h, hasBlock h w.db = true → hasBlock h w'.db = true) ∧
    ∀ h, l = .row (.block h) .update → hasBlock h w'.db = hasBlock h w.db
  Mark _ := False
  Excluded _ := False
  refl _ _ := ⟨fun _ h => h, fun _ _ => rfl⟩
  trans h h' := ⟨fun g hg => h'.1 g (h.1 g hg), fun g hg => (h'.2 g hg).trans (h.2 g hg)⟩

/-- What holds of a commit once it has locked its session. -/
structure Stance (nodes : Table Uuid NodeRow) (a : CommitFile) (held : List DbLock)
    (eff : Db → Db) (w : World Db CommitFile (Uuid × Int)) : Prop where
  inv : w.db.nodes = nodes
  session : .row (.session a.sessionId) .update ∈ held
  tidy : Tidy held w.db
  adds : Adds held eff

section
variable {nodes : Table Uuid NodeRow} {a : CommitFile} {held : List DbLock} {eff : Db → Db}
  {w w' : World Db CommitFile (Uuid × Int)}

theorem Stance.env (h : Stance nodes a held eff w) (hw : (registry nodes).Env held w w') :
    Stance nodes a held eff w' where
  inv := hw.1
  session := h.session
  tidy := ⟨h.tidy.tenants, h.tidy.manifests, fun g hg => by
    rw [(hw.2 _ hg).2 g rfl]
    exact h.tidy.fresh g hg⟩
  adds := h.adds

variable {g : Hash}

/-- A lock that can be taken without more: a reference to a tenant, a manifest row of an inserted
version, a block other than a new one, or a row of another table. -/
def Plain (held : List DbLock) : DbLock → Prop
  | .row (.tenant _) m => m = .keyShare
  | .row (.manifest v _) _ => .row (.version v) .update ∈ held
  | .row (.block _) m => m ≠ .update
  | _ => True

/-- A statement that takes such locks, and writes neither nodes nor blocks. -/
theorem Stance.extend (h : Stance nodes a held eff w) (locks : List DbLock) (f : Db → Db)
    (hlocks : ∀ l ∈ locks, Plain held l) (hnodes : ∀ d, (f d).nodes = d.nodes)
    (hf : ∀ d g, hasBlock g (f d) = hasBlock g d) :
    Stance nodes a (locks ++ held) (fun d => f (eff d)) w where
  inv := h.inv
  session := List.mem_append_right _ h.session
  tidy := by
    refine ⟨fun t m hm => ?_, fun v i m hm => ?_, fun g hg => ?_⟩
    · exact (List.mem_append.1 hm).elim (hlocks _) (h.tidy.tenants t m)
    · exact List.mem_append_right _
        ((List.mem_append.1 hm).elim (hlocks _) (h.tidy.manifests v i m))
    · exact (List.mem_append.1 hg).elim (fun hg => absurd rfl (hlocks _ hg)) (h.tidy.fresh g)
  adds := by
    refine ⟨fun d => (hnodes _).trans (h.adds.nodes d), fun d g hg => ?_, fun d g hg => ?_⟩
    · rw [hf]
      exact h.adds.grows d g hg
    · rw [hf] at hg
      exact (h.adds.owned d g hg).imp_right (List.mem_append_right _)

/-- At its end a commit changes nothing that others rely on. -/
theorem Stance.settles (h : Stance nodes a held eff w) (c : CommitFile) (r : Uuid × Int) :
    (registry nodes).Settles c r held eff w := by
  intro w' hw' i
  refine ⟨(h.adds.nodes _).trans hw'.1, fun l hl => ⟨fun g hg => h.adds.grows _ g hg, ?_⟩⟩
  rintro g rfl
  rw [Bool.eq_iff_iff]
  refine ⟨fun hg => ?_, fun hg => h.adds.grows _ g hg⟩
  rcases h.adds.owned _ g hg with hthere | hown
  · exact hthere
  · rcases hl _ hown with hmark | hmark | hfree
    · exact hmark.elim
    · exact hmark.elim
    · rw [DbLock.conflicts_update] at hfree
      cases hfree

/-! ## Statements -/

/-- What a commit is watched for; it leaves no marks. -/
def conduct (order : Hash → Nat) : Conduct Db DbLock CommitFile (Uuid × Int) where
  waits held w l := Tidy held w.db ∧ InOrder order held w.db l
  marks _ _ _ := False

variable {order : Hash → Nat}

/-! ## The node and the version -/

/-- What holds until the version is inserted: the node is locked, or nothing that ranks with it. -/
structure AtNode (nodes : Table Uuid NodeRow) (a : CommitFile) (nodeId : Uuid)
    (held : List DbLock) (eff : Db → Db) (w : World Db CommitFile (Uuid × Int)) : Prop
    extends Stance nodes a held eff w where
  below : ∀ l ∈ held, stage l < 2
  locked : .row (.node nodeId) .update ∈ held ∨ ∀ l ∈ held, stage l < 1

variable {nodeId : Uuid}

theorem AtNode.env (h : AtNode nodes a nodeId held eff w)
    (hw : (registry nodes).Env held w w') : AtNode nodes a nodeId held eff w' :=
  ⟨h.toStance.env hw, h.below, h.locked⟩

/-- The nodes are as they were. -/
theorem Stance.hasNode (h : Stance nodes a held eff w) (nodeId : Uuid) :
    Db.hasNode nodeId (eff w.db) = (nodes.lookup nodeId).isSome := by
  rw [Db.hasNode, h.adds.nodes, h.inv]

/-- Locking the node, the first or the second time. -/
theorem watch_forUpdate_node (h : AtNode nodes a nodeId held eff w) :
    (registry nodes).watch (conduct order) (forUpdate (.node nodeId) present)
      (fun v held' eff' w' => AtNode nodes a nodeId held' eff' w' ∧
        (present v = true → .row (.node nodeId) .update ∈ held') ∧
        hasNode nodeId v = (nodes.lookup nodeId).isSome) held eff w := by
  refine watch_forUpdate fun w' hw' => ⟨fun _ => ?_, ?_, fun hp => ?_, ?_⟩
  · exact ⟨(h.env hw').tidy, h.locked.elim .own .node⟩
  · have hlocks : ∀ l ∈ lockIf present (.node nodeId) .update (eff w'.db),
        l = .row (.node nodeId) .update := fun l hl => (mem_lockIf.1 hl).2
    refine ⟨(h.env hw').toStance.extend _ id ?_ (fun _ => rfl) (fun _ _ => rfl), ?_, ?_⟩
    · exact fun l hl => hlocks l hl ▸ trivial
    · intro l hl
      rcases List.mem_append.1 hl with hl | hl
      · exact hlocks l hl ▸ Nat.lt_succ_self 1
      · exact h.below l hl
    · cases hp : present (eff w'.db) with
      | true => exact .inl (List.mem_append_left _ (mem_lockIf.2 ⟨hp, rfl⟩))
      | false =>
        rw [lockIf, if_neg (by rw [hp]; decide)]
        exact h.locked
  · exact List.mem_append_left _ (mem_lockIf.2 ⟨hp, rfl⟩)
  · exact (h.env hw').toStance.hasNode nodeId

/-- The node is locked, if it is there. -/
def NodeLocked (nodes : Table Uuid NodeRow) (nodeId : Uuid) (held : List DbLock) : Prop :=
  (nodes.lookup nodeId).isSome = true → .row (.node nodeId) .update ∈ held

theorem watch_nextVersionNumber (h : AtNode nodes a nodeId held eff w) :
    (registry nodes).watch (conduct order) (nextVersionNumber nodeId)
      (fun _ held' eff' w' => AtNode nodes a nodeId held' eff' w' ∧
        NodeLocked nodes nodeId held') held eff w := by
  refine watch_bind (watch_mono (watch_forUpdate_node h) ?_)
  rintro v held' eff' w' ⟨h', hlocked, hnode⟩
  refine watch_bind (watch_read fun w₂ hw₂ => ?_)
  refine watch_checked fun _ => ?_
  exact ⟨h'.env hw₂, fun hn => hlocked (hnode.trans hn)⟩

/-- What holds once the version is inserted. -/
structure AtVersion (nodes : Table Uuid NodeRow) (a : CommitFile) (held : List DbLock)
    (eff : Db → Db) (w : World Db CommitFile (Uuid × Int)) : Prop
    extends Stance nodes a held eff w where
  below : ∀ l ∈ held, stage l < 3
  version : .row (.version a.versionId) .update ∈ held

theorem watch_insertFileVersion (h : AtNode nodes a r.nodeId held eff w)
    (hnode : NodeLocked nodes r.nodeId held) :
    (registry nodes).watch (conduct order) (insertFileVersion a.versionId r)
      (fun _ => AtVersion nodes a) held eff w := by
  refine watch_checked fun _ => watch_checked fun _ => ?_
  refine watch_bind (watch_stmt (fun _ => List.Subset.refl _) fun w₁ hw₁ => ?_)
  refine ⟨fun l hl => ⟨(h.env hw₁).tidy, ?_⟩, ?_⟩
  · simp only [List.mem_cons, List.not_mem_nil, or_false] at hl
    rcases hl with rfl | rfl
    · exact .version h.below
    · exact .index h.below
  have h₁ : Stance nodes a
      ([.row (.version a.versionId) .update, .row (.uqNodeVersion r.nodeId r.versionNumber) .update]
        ++ held) (fun d => insertVersion a.versionId r (eff d)) w₁ := by
    refine (h.env hw₁).toStance.extend _ _ ?_ (fun _ => rfl) (fun _ _ => rfl)
    exact List.forall_mem_cons.2 ⟨trivial, List.forall_mem_singleton.2 trivial⟩
  refine watch_checked fun _ => watch_checked fun _ => ?_
  refine watch_references fun w₂ hw₂ => ⟨fun hp => ?_, fun _ => ?_⟩
  · rw [(h₁.env hw₂).hasNode] at hp
    exact ⟨(h₁.env hw₂).tidy, .own (List.mem_append_right _ (hnode hp))⟩
  · refine ⟨(h₁.env hw₂).extend [.row (.node r.nodeId) .keyShare] id
      (List.forall_mem_singleton.2 trivial) (fun _ => rfl) (fun _ _ => rfl), ?_, ?_⟩
    · intro l hl
      simp only [List.cons_append, List.nil_append, List.mem_cons] at hl
      rcases hl with rfl | rfl | rfl | hl
      · exact Nat.one_lt_succ_succ 1
      · exact Nat.lt_succ_self 2
      · exact Nat.lt_succ_self 2
      · exact (h.below l hl).trans (Nat.lt_succ_self 2)
    · exact List.mem_cons_of_mem _ List.mem_cons_self

/-! ## The blocks -/

/-- What holds while the blocks are passed over: those of `blocks` have been inserted or are there,
those of `done` have been counted. -/
structure AtBlocks (nodes : Table Uuid NodeRow) (a : CommitFile)
    (blocks done : List BlockMeta) (held : List DbLock) (eff : Db → Db)
    (w : World Db CommitFile (Uuid × Int)) : Prop extends Stance nodes a held eff w where
  version : .row (.version a.versionId) .update ∈ held
  there : ∀ b ∈ blocks, .row (.block b.blockHash) .update ∈ held ∨ hasBlock b.blockHash w.db = true
  counted : ∀ g, .row (.block g) .noKeyUpdate ∈ held ↔ g ∈ done.map BlockMeta.blockHash

variable {blocks done : List BlockMeta}

theorem AtBlocks.env (h : AtBlocks nodes a blocks done held eff w)
    (hw : (registry nodes).Env held w w') :
    AtBlocks nodes a blocks done held eff w' :=
  ⟨h.toStance.env hw, h.version, fun b hb => (h.there b hb).imp_right ((hw.2 _ h.session).1 _),
    h.counted⟩

/-- A statement that takes one lock, but not to count a block, and writes neither nodes nor
blocks. -/
theorem AtBlocks.extend (h : AtBlocks nodes a blocks done held eff w)
    (f : Db → Db) (hl : Plain held l) (hcount : ∀ g, l ≠ .row (.block g) .noKeyUpdate)
    (hnodes : ∀ d, (f d).nodes = d.nodes) (hf : ∀ d g, hasBlock g (f d) = hasBlock g d) :
    AtBlocks nodes a blocks done (l :: held) (fun d => f (eff d)) w where
  toStance := h.toStance.extend [l] f (List.forall_mem_singleton.2 hl) hnodes hf
  version := List.mem_cons_of_mem _ h.version
  there b hb := (h.there b hb).imp_left (List.mem_cons_of_mem _)
  counted g := by
    rw [List.mem_cons, h.counted]
    exact or_iff_right (hcount g).symm

/-- The first pass: all locks on blocks are those of inserted ones. -/
structure Inserting (nodes : Table Uuid NodeRow) (a : CommitFile)
    (blocks : List BlockMeta) (held : List DbLock) (eff : Db → Db)
    (w : World Db CommitFile (Uuid × Int)) : Prop
    extends AtBlocks nodes a blocks [] held eff w where
  inserted : ∀ g m, .row (.block g) m ∈ held → m = .update ∧ g ∈ blocks.map BlockMeta.blockHash

theorem Inserting.env (h : Inserting nodes a blocks held eff w)
    (hw : (registry nodes).Env held w w') :
    Inserting nodes a blocks held eff w' :=
  ⟨h.toAtBlocks.env hw, h.inserted⟩

theorem AtVersion.inserting (h : AtVersion nodes a held eff w) :
    Inserting nodes a [] held eff w := by
  have hno : ∀ g m, .row (.block g) m ∉ held := fun g m hm =>
    (three_le_stage_block g m).not_gt (h.below _ hm)
  exact ⟨⟨h.toStance, h.version, nofun, fun g => iff_of_false (hno g _) List.not_mem_nil⟩,
    fun g m hm => absurd hm (hno g m)⟩

variable {r : BlockRow} {b : BlockMeta}

/-- An inserted block is locked. -/
theorem Stance.insertBlock (h : Stance nodes a held eff w)
    (hg : hasBlock g (eff w.db) = false) :
    Stance nodes a (.row (.block g) .update :: held)
      (fun d => Db.insertBlock g r (eff d)) w where
  inv := h.inv
  session := List.mem_cons_of_mem _ h.session
  tidy := by
    refine ⟨fun t m hm => ?_, fun v i m hm => ?_, fun k hk => ?_⟩
    · exact h.tidy.tenants t m ((List.mem_cons.1 hm).resolve_left nofun)
    · exact List.mem_cons_of_mem _
        (h.tidy.manifests v i m ((List.mem_cons.1 hm).resolve_left nofun))
    · rcases List.mem_cons.1 hk with heq | hk
      · cases heq
        exact Bool.eq_false_iff.2 fun hk => Bool.eq_false_iff.1 hg (h.adds.grows _ g hk)
      · exact h.tidy.fresh k hk
  adds := by
    refine ⟨fun d => h.adds.nodes d, fun d k hk => ?_, fun d k hk => ?_⟩
    · exact (hasBlock_insertBlock _ _ _ _).2 (.inr (h.adds.grows d k hk))
    · rcases (hasBlock_insertBlock _ _ _ _).1 hk with rfl | hk
      · exact .inr List.mem_cons_self
      · exact (h.adds.owned d k hk).imp_right (List.mem_cons_of_mem _)

/-- What the INSERT of a block waits for: a row that is there is found, and a new one comes after
those inserted so far. -/
theorem Inserting.inOrder (h : Inserting nodes a done held eff w)
    (hasc : b.blockHash ∈ done.map BlockMeta.blockHash ∨
      ∀ c ∈ done, order c.blockHash < order b.blockHash) :
    InOrder order held w.db
      (.row (.block b.blockHash)
        (if hasBlock b.blockHash (eff w.db) then .noKeyUpdate else .update)) := by
  split
  · next hb =>
    rcases (h.adds.owned _ _ hb).symm with hown | hthere
    · exact .own hown
    · exact .counted hthere fun g hg => nomatch (h.inserted g _ hg).1
  · next hb =>
    rcases hasc with hrep | habove
    · obtain ⟨c, hc, heq⟩ := List.mem_map.1 hrep
      rcases h.there c hc with hown | hthere
      · exact .own (heq ▸ hown)
      · exact absurd (h.adds.grows _ _ (heq ▸ hthere)) hb
    · refine .inserted fun g m hm => ?_
      obtain ⟨rfl, hg⟩ := h.inserted g m hm
      obtain ⟨c, hc, rfl⟩ := List.mem_map.1 hg
      exact ⟨rfl, habove c hc⟩

/-- A block that the INSERT finds. -/
theorem Inserting.found (h : Inserting nodes a done held eff w)
    (hb : hasBlock b.blockHash (eff w.db) = true) :
    Inserting nodes a (done ++ [b]) held eff w where
  toStance := h.toStance
  version := h.version
  there c hc := by
    rcases List.mem_append.1 hc with hc | hc
    · exact h.there c hc
    · cases List.mem_singleton.1 hc
      exact (h.adds.owned _ _ hb).symm
  counted := h.counted
  inserted g m hm := by
    rw [List.map_append]
    exact (h.inserted g m hm).imp_right (List.mem_append_left _)

/-- A block that is inserted. -/
theorem Inserting.insertBlock (h : Inserting nodes a done held eff w)
    (hb : hasBlock b.blockHash (eff w.db) = false) :
    Inserting nodes a (done ++ [b]) (.row (.block b.blockHash) .update :: held)
      (fun d => Db.insertBlock b.blockHash r (eff d)) w where
  toStance := h.toStance.insertBlock hb
  version := List.mem_cons_of_mem _ h.version
  there c hc := by
    rcases List.mem_append.1 hc with hc | hc
    · exact (h.there c hc).imp_left (List.mem_cons_of_mem _)
    · cases List.mem_singleton.1 hc
      exact .inl List.mem_cons_self
  counted g := by
    rw [← h.counted, List.mem_cons]
    exact or_iff_right nofun
  inserted g m hm := by
    rw [List.map_append]
    rcases List.mem_cons.1 hm with heq | hm
    · cases heq
      exact ⟨rfl, List.mem_append_right _ List.mem_cons_self⟩
    · exact (h.inserted g m hm).imp_right (List.mem_append_left _)

/-- One row of the INSERT into `cas_blocks`. -/
theorem watch_insertBlockRow (h : Inserting nodes a done held eff w)
    (hasc : b.blockHash ∈ done.map BlockMeta.blockHash ∨
      ∀ c ∈ done, order c.blockHash < order b.blockHash) :
    (registry nodes).watch (conduct order) (insertBlockRow b.blockHash r)
      (fun _ => Inserting nodes a (done ++ [b])) held eff w := by
  refine watch_checked fun _ => watch_checked fun _ => ?_
  refine watch_bind (watch_stmt (fun v => ?_) fun w' hw' => ⟨fun l hl => ?_, ?_⟩)
  · cases hasBlock b.blockHash v with
    | true => exact List.nil_subset _
    | false => exact List.Subset.refl _
  · cases List.mem_singleton.1 hl
    exact ⟨(h.toStance.env hw').tidy, (h.env hw').inOrder hasc⟩
  · cases hb : hasBlock b.blockHash (eff w'.db) with
    | true => exact (h.env hw').found hb
    | false => exact (h.env hw').insertBlock hb

/-- **The first pass** over the blocks, with the foreign keys of the rows it inserts. -/
theorem watch_upsertBlocks (hasc : Ascending order blocks)
    (h : AtVersion nodes a held eff w) :
    (registry nodes).watch (conduct order) (upsertBlocks t now blocks)
      (fun _ => AtBlocks nodes a blocks []) held eff w := by
  refine watch_bind (watch_mono (watch_collect
    (I := Inserting nodes a) [] h.inserting ?_ (List.nil_append blocks)) ?_)
  · intro done b rest held eff w hl h
    exact watch_bind (watch_mono (watch_insertBlockRow h (hasc done b rest hl))
      fun _ _ _ _ h' => h')
  · intro inserted held eff w h
    refine watch_forEach (I := fun _ => AtBlocks nodes a blocks []) []
      h.toAtBlocks ?_ (List.nil_append inserted)
    intro done b rest held eff w _ h
    refine watch_references fun w' hw' =>
      ⟨fun _ => ⟨(h.toStance.env hw').tidy, .tenant⟩, fun _ => ?_⟩
    exact (h.env hw').extend id rfl nofun (fun _ => rfl) (fun _ _ => rfl)

theorem watch_insertManifestRow (h : AtBlocks nodes a blocks done held eff w) :
    (registry nodes).watch (conduct order) (insertManifestRow a.versionId b)
      (fun _ => AtBlocks nodes a blocks done) held eff w := by
  refine watch_checked fun _ => watch_checked fun _ => ?_
  refine watch_checked fun _ => watch_checked fun _ => ?_
  refine watch_bind (watch_stmt (fun _ => List.Subset.refl _) fun w' hw' => ?_)
  refine ⟨fun l hl => ?_, watch_check fun _ => ?_⟩
  · cases List.mem_singleton.1 hl
    exact ⟨(h.toStance.env hw').tidy, .manifest h.version⟩
  · exact (h.env hw').extend _ h.version nofun (fun _ => rfl) (fun _ _ => rfl)

/-- The foreign key of a block and the trigger that counts it. -/
theorem AtBlocks.count (h : AtBlocks nodes a blocks done held eff w)
    (b : BlockMeta) :
    AtBlocks nodes a blocks (done ++ [b])
      (.row (.block b.blockHash) .noKeyUpdate :: held) (fun d => addRef b.blockHash (eff d)) w where
  toStance := h.toStance.extend [.row (.block b.blockHash) .noKeyUpdate] (addRef b.blockHash)
    (List.forall_mem_singleton.2 nofun) (fun _ => rfl) (fun d g => hasBlock_addRef d b.blockHash g)
  version := List.mem_cons_of_mem _ h.version
  there c hc := (h.there c hc).imp_left (List.mem_cons_of_mem _)
  counted g := by
    rw [List.map_append, List.mem_append, ← h.counted, List.mem_cons, or_comm]
    simp

/-- The triggers of one manifest row. -/
theorem watch_manifestRowTriggers (h : AtBlocks nodes a blocks done held eff w)
    (hb : b ∈ blocks) (hasc : b.blockHash ∈ done.map BlockMeta.blockHash ∨
      ∀ c ∈ done, order c.blockHash < order b.blockHash) :
    (registry nodes).watch (conduct order) (manifestRowTriggers a.versionId b)
      (fun _ => AtBlocks nodes a blocks (done ++ [b])) held eff w := by
  refine watch_bind (watch_references fun w₁ hw₁ => ⟨fun _ => ?_, fun _ => ?_⟩)
  · exact ⟨(h.toStance.env hw₁).tidy, .own h.version⟩
  have h₁ : AtBlocks nodes a blocks done
      (.row (.version a.versionId) .keyShare :: held) eff w₁ :=
    (h.env hw₁).extend id trivial nofun (fun _ => rfl) (fun _ _ => rfl)
  refine watch_bind (watch_references fun w₂ hw₂ => ⟨fun _ => ?_, fun _ => ?_⟩)
  · exact ⟨(h₁.toStance.env hw₂).tidy, ((h₁.env hw₂).there b hb).elim .own .shared⟩
  have h₂ : AtBlocks nodes a blocks done
      (.row (.block b.blockHash) .keyShare :: .row (.version a.versionId) .keyShare :: held) eff
      w₂ :=
    (h₁.env hw₂).extend id nofun (fun _ => by simp) (fun _ => rfl) (fun _ _ => rfl)
  refine watch_bind (watch_read fun w₃ hw₃ => ?_)
  refine watch_checked fun _ => ?_
  have h₃ := h₂.env hw₃
  refine watch_bind (watch_stmt (fun _ => List.Subset.refl _) fun w₄ hw₄ => ?_)
  have h₄ := h₃.env hw₄
  refine ⟨fun l hl => ⟨h₄.tidy, ?_⟩, ?_⟩
  · obtain ⟨-, rfl⟩ := mem_lockIf.1 hl
    rcases h₄.there b hb with hown | hthere
    · exact .own hown
    · rcases hasc with hrep | habove
      · exact .again ((h₄.counted _).2 hrep)
      · refine .counted hthere fun g hg => ?_
        obtain ⟨c, hc, rfl⟩ := List.mem_map.1 ((h₄.counted g).1 hg)
        exact habove c hc
  · refine watch_bind (watch_check fun hp => watch_check fun _ => ?_)
    rw [lockIf, if_pos hp]
    simp only [if_pos hp]
    exact h₄.count b

/-- **The second pass** over the blocks. -/
theorem watch_insertManifestBlocks (hasc : Ascending order blocks)
    (h : AtBlocks nodes a blocks [] held eff w) :
    (registry nodes).watch (conduct order) (insertManifestBlocks a.versionId blocks)
      (fun _ => AtBlocks nodes a blocks blocks) held eff w := by
  refine watch_bind (watch_mono (watch_forEach
    (I := fun _ => AtBlocks nodes a blocks []) [] h ?_
      (List.nil_append blocks)) ?_)
  · intro done b rest held eff w _ h
    exact watch_insertManifestRow h
  · intro _ held eff w h
    refine watch_forEach (I := AtBlocks nodes a blocks) [] h ?_
      (List.nil_append blocks)
    intro done b rest held eff w hl h
    refine watch_manifestRowTriggers h ?_ (hasc done b rest hl)
    rw [← hl]
    exact List.mem_append_right _ List.mem_cons_self

theorem watch_markCompleted (h : Stance nodes a held eff w) :
    (registry nodes).watch (conduct order) (markCompleted a.sessionId n)
      (fun _ => Stance nodes a) held eff w := by
  refine watch_bind (watch_read fun w₁ hw₁ => watch_ite (fun _ => ?_) ?_)
  · refine watch_bind (watch_stmt (fun _ => List.Subset.refl _) fun w₂ hw₂ => ?_)
    have h₂ := (h.env hw₁).env hw₂
    refine ⟨fun l hl => ?_, ?_⟩
    · obtain ⟨-, rfl⟩ := mem_lockIf.1 hl
      exact ⟨h₂.tidy, .own h.session⟩
    · refine h₂.extend _
        (fun d => if hasSession a.sessionId (eff w₂.db) then completeSession a.sessionId n d else d)
        ?_ (fun d => ?_) (fun d g => ?_)
      · exact fun l hl => (mem_lockIf.1 hl).2 ▸ trivial
      · split
        · rfl
        · rfl
      · split
        · rfl
        · rfl
  · exact fun _ => h.env hw₁

/-! ## The whole commit -/

theorem watch_commitNode (hasc : Ascending order a.blocks)
    (h : AtNode nodes a nodeId held eff w) :
    (registry nodes).watch (conduct order) (commitNode a totalSize nodeId)
      ((registry nodes).Settles a) held eff w := by
  refine watch_bind (watch_mono (watch_forUpdate_node h) ?_)
  rintro _ held eff w ⟨h, -⟩
  refine watch_bind (watch_mono (watch_nextVersionNumber h) ?_)
  rintro n held eff w ⟨h, hnode⟩
  refine watch_bind (watch_mono (watch_insertFileVersion h hnode) ?_)
  intro _ held eff w h
  refine watch_bind (watch_mono (watch_upsertBlocks hasc h) ?_)
  intro _ held eff w h
  refine watch_bind (watch_mono (watch_insertManifestBlocks hasc h) ?_)
  intro _ held eff w h
  refine watch_bind (watch_mono (watch_markCompleted h.toStance) ?_)
  intro _ held eff w h
  exact h.settles a _

/-- Once the session is locked. -/
theorem atNode_session (hinv : w.db.nodes = nodes) (a : CommitFile) (nodeId : Uuid) :
    AtNode nodes a nodeId [.row (.session a.sessionId) .update] id w where
  inv := hinv
  session := List.mem_cons_self
  tidy := by
    refine ⟨fun t m hm => ?_, fun v i m hm => ?_, fun g hg => ?_⟩
    · cases List.mem_singleton.1 hm
    · cases List.mem_singleton.1 hm
    · cases List.mem_singleton.1 hg
  adds := ⟨fun _ => rfl, fun _ _ hg => hg, fun _ _ hg => .inl hg⟩
  below := List.forall_mem_singleton.2 Nat.two_pos
  locked := .inr (List.forall_mem_singleton.2 Nat.one_pos)

/-- **`CommitFile` waits in order**, if its block list ascends. -/
theorem watch_commitFile (hasc : Ascending order a.blocks) :
    (registry nodes).watch (conduct order) (commitFile a) ((registry nodes).Settles a) [] id w := by
  refine watch_bind (watch_forUpdate fun w' hw' => ⟨fun _ => ?_, ?_⟩)
  · exact ⟨⟨nofun, nofun, nofun⟩, .session rfl⟩
  · split
    · trivial
    · next session hsession =>
      have hlocks : lockIf (hasSession a.sessionId) (.session a.sessionId) .update w'.db =
          [.row (.session a.sessionId) .update] := if_pos (Option.isSome_of_eq_some hsession)
      refine watch_bind (watch_bind (watch_check fun _ => ?_))
      refine watch_checked fun _ => ?_
      refine watch_bind (watch_check fun _ => watch_check fun _ => ?_)
      split
      · trivial
      · next nodeId _ =>
        refine watch_commitNode hasc ?_
        rw [id, hlocks]
        exact atNode_session hw'.1 a nodeId

end

/-- **Commits with a common order never deadlock.** If there is one order of the hashes in which
every block list ascends, repetitions apart, no state of a run has a cycle of commits waiting for
each other. -/
theorem commitFile_not_deadlocked (order : Hash → Nat) (d : Db) (as : List (Action CommitFile))
    (s : Sys Db DbLock Err CommitFile (Uuid × Int))
    (hasc : ∀ a, .start a ∈ as → Ascending order a.blocks)
    (hrun : Run.run (Sys.step commitFile) (Sys.init d) as = some s) : ¬s.Deadlocked := by
  have hwatched : (registry d.nodes).Watched (fun _ => conduct order) s :=
    watched_run (by rfl) (fun a _ ha _ => watch_commitFile (hasc a ha)) hrun
  refine Sys.not_deadlocked_of_rank (rank order) fun hi hj hk => ?_
  refine (hwatched.waitsOver hj).2.rank_lt (hwatched.waitsOver hk).1 hi.held hj.held hj.conflict ?_
  intro x hx y hy
  rcases hwatched.apart hj.waiter hj.holder hj.apart x hx y hy with hmark | hmark | hfree
  · exact hmark.elim
  · exact hmark.elim
  · exact hfree

/-- A list whose hashes increase ascends. -/
theorem Ascending.of_pairwise {blocks : List BlockMeta}
    (h : blocks.Pairwise fun b c => order b.blockHash < order c.blockHash) :
    Ascending order blocks := by
  rintro done b rest rfl
  exact .inr fun c hc => (List.pairwise_append.1 h).2.2 c hc b List.mem_cons_self

/-! ## Two files that share two blocks -/

/-- Two files with a session each; nothing has been committed. -/
def twoFiles : Db :=
  .seed (AList.singleton 1 ⟨100, 0⟩)
    (((AList.singleton 9 ⟨1, none, ['r'], .directory, [Uuid.nodeLabel 9], 1, false⟩ :
      Table Uuid NodeRow).insert 2
        ⟨1, some 9, ['f'], .file, [Uuid.nodeLabel 9, Uuid.nodeLabel 2], 1, false⟩).insert 3
        ⟨1, some 9, ['g'], .file, [Uuid.nodeLabel 9, Uuid.nodeLabel 3], 1, false⟩)
    ((AList.singleton 4 ⟨1, some 2, .initiated, 8, 2, 0, 50⟩ : Table Uuid SessionRow).insert 5
      ⟨1, some 3, .initiated, 8, 2, 0, 50⟩)

/-- The commit of a session with the blocks `g` and `h`, in this order. -/
def commitOf (sessionId versionId : Uuid) (g h : Hash) : CommitFile :=
  ⟨1, sessionId, 0, [⟨g, 0, 0, 4⟩, ⟨h, 1, 4, 4⟩], versionId, 0, 0⟩

/-- Each commit has inserted its first block. -/
def oppositeOrders : List (Action CommitFile) :=
  [.start (commitOf 4 6 10 11), .start (commitOf 5 7 11 10)] ++ List.replicate 7 (.exec 0) ++
    List.replicate 7 (.exec 1)

/-- The first commit has inserted its first block, and the second gets there. -/
def sameOrder : List (Action CommitFile) :=
  [.start (commitOf 4 6 10 11), .start (commitOf 5 7 10 11)] ++ List.replicate 7 (.exec 0) ++
    List.replicate 6 (.exec 1)

/-- **Two commits wait for each other**: their files and sessions differ, and they insert two blocks
in opposite orders. -/
theorem commits_deadlock :
    ∃ s, Run.run (Sys.step commitFile) (Sys.init twoFiles) oppositeOrders = some s ∧
      s.Deadlocked := by
  have hrun : (Run.run (Sys.step commitFile) (Sys.init twoFiles) oppositeOrders).map
      (fun s => (s.waits 0 1, s.waits 1 0)) = some (true, true) := by
    decide +kernel
  obtain ⟨s, hs, h01, h10⟩ := exists_of_map_eq_pair hrun
  exact ⟨s, hs, 0, .tail (.single h01) h10⟩

theorem commitFile_not_deadlocked_sameOrder :
    ∃ s, Run.run (Sys.step commitFile) (Sys.init twoFiles) sameOrder = some s ∧
      s.waits 1 0 = true ∧ ¬s.Deadlocked := by
  have hrun : (Run.run (Sys.step commitFile) (Sys.init twoFiles) sameOrder).map
      (fun s => s.waits 1 0) = some true := by
    decide +kernel
  obtain ⟨s, hs, hwaits⟩ := Option.map_eq_some_iff.1 hrun
  refine ⟨s, hs, hwaits, commitFile_not_deadlocked BitVec.toNat twoFiles sameOrder s ?_ hs⟩
  intro a ha
  refine Ascending.of_pairwise ?_
  have hcall : a = commitOf 4 6 10 11 ∨ a = commitOf 5 7 10 11 := by
    simpa [sameOrder] using ha
  rcases hcall with rfl | rfl
  · exact List.pairwise_pair.2 (by decide)
  · exact List.pairwise_pair.2 (by decide)

end Aegis.Ingress
