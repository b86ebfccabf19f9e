import Aegis.Ingress.Accounts
import Aegis.Ingress.Dedup

/-!
# The storage quota

`handleInitiate` compares the declared size of one upload with the quota and with `used_bytes` of
the tenant, a column that nothing in the ingest path ever writes. Open sessions and committed
versions do not count, so any number of uploads that fit one by one can be committed, and the
versions of a tenant can outgrow its quota; so can a single upload whose size makes the `int64` sum
wrap around. Where `used_bytes` covers what the tenant has committed and what its open sessions
declare whenever a session is opened, and the sum does not wrap around, the declared sizes of all
sessions of the tenant stay within the quota, and so do its versions.
-/

namespace Aegis.Db

/-- The sizes of the committed versions of a tenant: those of its nodes. -/
def committedBytes (d : Db) (t : Uuid) : Int :=
  d.versions.total fun r => if d.nodeTenant r.nodeId = some t then r.totalSizeBytes else 0

/-- The sizes declared by the sessions of a tenant that are not completed. -/
def openBytes (d : Db) (t : Uuid) : Int :=
  d.sessions.total fun r => if r.tenantId = t ∧ r.status ≠ .completed then r.totalSize else 0

end Aegis.Db

namespace Aegis.Ingress.Handlers

open Db Stmt Txn Txn.Prog

/-! ## What is kept -/

/-- Tenants are as they were, and no node is lost or changes hands. -/
structure Retains (d d' : Db) : Prop where
  tenants : d'.tenants = d.tenants
  nodes : ∀ n t, d.nodeTenant n = some t → d'.nodeTenant n = some t

theorem Retains.refl (d : Db) : Retains d d := ⟨rfl, fun _ _ h => h⟩

theorem Retains.trans (h : Retains d₁ d₂) (h' : Retains d₂ d₃) : Retains d₁ d₃ :=
  ⟨h'.tenants.trans h.tenants, fun n t hn => h'.nodes n t (h.nodes n t hn)⟩

theorem retains_of_eq (ht : d'.tenants = d.tenants) (hn : d'.nodes = d.nodes) : Retains d d' :=
  ⟨ht, fun n t h => by rwa [nodeTenant, hn]⟩

theorem body_retains (c : Call) : c.body.Within Retains := by
  refine c.body_uses.within fun f hw d => ?_
  cases hw with
  | skip => exact Retains.refl d
  | node _ =>
    refine ⟨rfl, fun n t hn => ?_⟩
    obtain ⟨row, hrow, rfl⟩ := Option.map_eq_some_iff.1 hn
    rw [nodeTenant, Db.insertNode, Table.lookup_insertNew, hrow]
    split <;> rfl
  | session _ | verified _ => exact retains_of_eq rfl rfl
  | file hw =>
    cases hw with
    | skip => exact Retains.refl d
    | fileVersion _ _ _ | fileBlock _ | fileManifest _ | fileRef _ | fileSession =>
      exact retains_of_eq rfl rfl

/-! ## What the handler knows -/

/-- A session may be opened: the node is the tenant's, the size is not negative, and the quota check
passes. -/
structure Fits (d : Db) (t n : Uuid) (size : Int) : Prop where
  node : d.nodeTenant n = some t
  nonneg : 0 ≤ size
  quota : ∃ r, d.tenants.lookup t = some r ∧
    (⟨r.storageQuotaBytes, r.usedBytes⟩ : TenantQuota).exceededBy size = false

theorem Fits.mono (hd : Retains d d') (h : Fits d t n size) : Fits d' t n size :=
  ⟨hd.nodes n t h.node, h.nonneg, by rw [hd.tenants]; exact h.quota⟩

/-- What an answer tells of the database, and that sessions are opened only where they fit. -/
def metering : Contract Cmd Answer Db where
  grows := Retains
  may d c :=
    match c with
    | .createUploadSession t n size _ => Fits d t n size
    | _ => True
  told d c a :=
    match c, a with
    | .getTenantQuota t, .ok q => ∃ r, d.tenants.lookup t = some r ∧
      q = (⟨r.storageQuotaBytes, r.usedBytes⟩ : TenantQuota)
    | .validateFileNode t n, .ok _ => d.nodeTenant n = some t
    | .createFileNode t _ _, .ok n => d.nodeTenant n = some t
    | _, _ => True
  refl := Retains.refl
  trans := Retains.trans

/-- With approval a session fits. -/
theorem fits_of_approval {req : InitiateRequest} {d : Db} {t n : Uuid}
    (h : Approval metering req d t n) : Fits d t n req.totalSize where
  node := by
    rcases h.node with ⟨d₀, hgrow, htold⟩ | ⟨p, d₀, hgrow, htold⟩
    · exact hgrow.nodes n t htold
    · exact hgrow.nodes n t htold
  nonneg := le_of_lt ((req.validate_eq_ok_iff).1 h.valid).2.2.1
  quota := by
    obtain ⟨q, ⟨d₀, hgrow, r, hr, rfl⟩, hq⟩ := h.quota
    exact ⟨r, by rw [hgrow.tenants, hr], hq⟩

theorem handle_meters (d : Db) (r : Request) :
    Serves metering (fun w resp => r.Met metering w resp) (handle srv r) d := by
  refine handle_serves (fun d c hc => ?_) (fun req d t n h => fits_of_approval h)
    (fun _ _ _ _ _ _ => trivial) (fun _ _ _ _ _ _ => trivial) r
  cases c with
  | createUploadSession t n size chunks => cases hc
  | _ => trivial

/-! ## The invariant -/

/-- When a session is opened for a tenant with a quota, `used_bytes` covers the versions and the
open sessions of the tenant, and `used_bytes` and the declared size add up to an `int64`. -/
def Call.metered (d : Db) : Call → Bool
  | .createUploadSession a => (d.tenants.lookup a.tenantId).all fun r =>
    decide (r.storageQuotaBytes ≤ 0) ||
      decide (d.committedBytes a.tenantId + d.openBytes a.tenantId ≤ r.usedBytes) &&
        decide (r.usedBytes + a.totalSize < 2 ^ 63)
  | _ => true

def metered (s : State) : Act → Bool
  | .commit i => (s.pool.txns[i]?).all fun t => t.call.metered s.db
  | _ => true

/-- Every session that a call opens fits. -/
def Call.Fit (d : Db) (c : Call) : Prop :=
  ∀ a, c = .createUploadSession a → Fits d a.tenantId a.nodeId a.totalSize

theorem Call.Fit.mono (hd : Retains d d') {c : Call} (h : c.Fit d) : c.Fit d' :=
  fun a hc => (h a hc).mono hd

/-- **The invariant of the pool**: the sessions that are opened or have been opened fit, and what
the sessions of a tenant declare is within its quota. -/
structure Books (pool : Sys Db DbLock Err Call Res) : Prop where
  good : accounting.Good pool
  bounded : Sys.Bounded (fun _ => Retains) pool
  recorded : pool.Recorded
  calls : ∀ (i : Nat) (t : Tx Db DbLock Err Call Res), pool.txns[i]? = some t →
    t.call.Fit pool.world.db
  commits : ∀ c ∈ pool.world.journal, c.call.Fit pool.world.db
  within : ∀ t r, pool.world.db.tenants.lookup t = some r → 0 < r.storageQuotaBytes →
    pool.world.db.declaredBytes t ≤ r.storageQuotaBytes

section Books

variable {pool pool' : Sys Db DbLock Err Call Res}

theorem books_init (tenants : Table Uuid TenantRow) (nodes : Table Uuid NodeRow) :
    Books (Sys.init (Db.seed tenants nodes ∅)) where
  good := Protocol.Good.init
    ⟨fun _ => rfl, fun _ => rfl, nofun, fun _ hc => absurd hc List.not_mem_nil⟩
  bounded := Sys.bounded_init _
  recorded := Sys.recorded_init _
  calls := by
    intro i t hi
    simp [Sys.init] at hi
  commits := fun _ hc => absurd hc List.not_mem_nil
  within := fun _ _ _ hq => le_of_lt hq

/-- A session is one that a committed call has opened. -/
theorem Books.session (h : Books pool) (hr : pool.world.db.sessions.lookup sid = some r) :
    r.nodeId.bind pool.world.db.nodeTenant = some r.tenantId ∧ 0 ≤ r.totalSize := by
  obtain ⟨c, hc, a, hcall, htenant, hnode, hsize⟩ := h.good.inv.opened sid r hr
  have hfit := h.commits c hc a hcall
  rw [hnode, Option.bind_some, htenant, hsize]
  exact ⟨hfit.node, hfit.nonneg⟩

/-- The versions of a tenant are its completed sessions. -/
theorem Books.committed_eq (h : Books pool) (t : Uuid) : pool.world.db.committedBytes t =
    pool.world.db.sessions.total fun r =>
      if r.status = .completed ∧ r.tenantId = t then r.totalSize else 0 := by
  refine (h.good.inv.matched fun n size =>
    if n.bind pool.world.db.nodeTenant = some t then size else 0).trans ?_
  refine Table.total_congr fun sid r hr => ?_
  simp only [completedWeight, (h.session hr).1, Option.some.injEq]
  rw [ite_and]

theorem Books.committed_nonneg (h : Books pool) (t : Uuid) :
    0 ≤ pool.world.db.committedBytes t := by
  rw [h.committed_eq]
  refine Table.total_nonneg fun sid r hr => ?_
  split
  · exact (h.session hr).2
  · exact le_rfl

theorem Books.open_nonneg (h : Books pool) (t : Uuid) : 0 ≤ pool.world.db.openBytes t := by
  refine Table.total_nonneg fun sid r hr => ?_
  split
  · exact (h.session hr).2
  · exact le_rfl

/-- The sessions of a tenant are completed, and are then its versions, or open. -/
theorem Books.declared (h : Books pool) (t : Uuid) :
    pool.world.db.committedBytes t + pool.world.db.openBytes t =
      pool.world.db.declaredBytes t := by
  rw [h.committed_eq, openBytes, ← Table.total_add, declaredBytes]
  refine Table.total_congr fun sid r _ => ?_
  by_cases hdone : r.status = .completed
  · simp [hdone]
  · simp [hdone]

/-- A sum that `int64` holds is not wrapped around. -/
theorem wrapInt64_of_lt (h0 : 0 ≤ n) (h : n < 2 ^ 63) : wrapInt64 n = n := by
  rw [wrapInt64, Int.emod_eq_of_lt (by omega) (by omega)]
  omega

/-- A call declares no more than the quota has room for, if it is metered. -/
theorem Books.declares_le (h : Books pool) {c : Call} (hfit : c.Fit pool.world.db)
    (hm : c.metered pool.world.db = true) (hr : pool.world.db.tenants.lookup t = some r)
    (hq : 0 < r.storageQuotaBytes) :
    pool.world.db.declaredBytes t + c.declares t ≤ r.storageQuotaBytes := by
  have hwithin := h.within t r hr hq
  cases c with
  | createUploadSession a =>
    rw [Call.declares]
    split
    · next ht =>
      subst ht
      obtain ⟨-, hsize, r', hr', hcheck⟩ := hfit a rfl
      obtain rfl := Option.some.inj (hr.symm.trans hr')
      rw [Call.metered, hr, Option.all_some, Bool.or_eq_true, decide_eq_true_eq,
        or_iff_right (not_le.2 hq), Bool.and_eq_true, decide_eq_true_eq, decide_eq_true_eq,
        h.declared] at hm
      have hsum : 0 ≤ pool.world.db.declaredBytes a.tenantId := by
        rw [← h.declared]
        exact add_nonneg (h.committed_nonneg _) (h.open_nonneg _)
      rw [TenantQuota.exceededBy, wrapInt64_of_lt (by omega) hm.2] at hcheck
      simp only [Bool.and_eq_false_iff, decide_eq_false_iff_not, not_lt] at hcheck
      omega
    · rwa [add_zero]
  | createFileNode a | commitFile a | markBlockVerified h => exact (add_zero _).trans_le hwithin

/-- A commit is entered in the journal, with what it declares. -/
theorem Books.commit (h : Books pool) (hi : pool.txns[i]? = some ⟨c, held, eff, .running (.ret r)⟩)
    (hgood : accounting.Good { pool.put i ⟨c, [], eff, .committed r⟩ with
      world := pool.world.commit i c r eff }) (hm : c.metered pool.world.db = true)
    (hrow : (eff pool.world.db).tenants.lookup t = some row) (hq : 0 < row.storageQuotaBytes) :
    (eff pool.world.db).declaredBytes t ≤ row.storageQuotaBytes := by
  have hretains : Retains pool.world.db (eff pool.world.db) := (h.bounded i _ hi).1 _
  have hjournal : (eff pool.world.db).declaredBytes t =
      ((pool.world.journal ++ [(⟨i, c, r, eff⟩ : Commit Db Call Res)]).map fun e =>
        e.call.declares t).sum := hgood.inv.declared t
  rw [hjournal, List.map_append, List.sum_append, ← h.good.inv.declared t, List.map_singleton,
    List.sum_singleton]
  rw [hretains.tenants] at hrow
  exact h.declares_le (h.calls i _ hi) hm hrow hq

/-- **One step of the pool** keeps the books, if what it starts fits and what it commits is
metered. -/
theorem Books.does (h : Books pool) (hd : Sys.Does Call.body pool a pool')
    (hstart : ∀ c, a = .start c → c.Fit pool.world.db)
    (hm : ∀ i, a = .commit i → ∀ t, pool.txns[i]? = some t →
      t.call.metered pool.world.db = true) :
    Books pool' ∧ Retains pool.world.db pool'.world.db := by
  have hgood := h.good.does (fun c _ => body_commits c) (.inl fun _ => id) hd
  have hbounded := h.bounded.does (fun _ => Retains.refl) Retains.trans body_retains hd
  have hrecorded := h.recorded.does hd
  have hretains : Retains pool.world.db pool'.world.db := by
    rcases hd.db_eq with hdb | ⟨i, c, held, eff, r, -, hi, hdb⟩
    · exact hdb ▸ Retains.refl _
    · exact hdb ▸ (h.bounded i _ hi).1 _
  -- a transaction was there with its call, or has just started
  have hcalls : ∀ (j : Nat) (t : Tx Db DbLock Err Call Res), pool'.txns[j]? = some t →
      t.call.Fit pool'.world.db := by
    intro j t hj
    rcases hd.call_of hj with ⟨t₀, hj₀, hcall, -⟩ | hnew
    · exact hcall ▸ (h.calls j t₀ hj₀).mono hretains
    · exact (hstart _ hnew).mono hretains
  refine ⟨⟨hgood, hbounded, hrecorded, hcalls, ?_, ?_⟩, hretains⟩
  · intro c hc
    cases hd with
    | @commit i c' held eff r hi =>
      rcases List.mem_append.1 hc with hc | hc
      · exact (h.commits c hc).mono hretains
      · obtain rfl := List.mem_singleton.1 hc
        exact (h.calls i _ hi).mono hretains
    | start _ | raise _ | step _ _ | abort _ => exact (h.commits c hc).mono hretains
  · intro t row hrow hq
    cases hd with
    | commit hi => exact h.commit hi hgood (hm _ rfl _ hi) hrow hq
    | start _ | raise _ | step _ _ | abort _ => exact h.within t row hrow hq

end Books

/-! ## Runs -/

/-- The transaction that a request waits for is that of its call. -/
def Linked (pool : Sys Db DbLock Err Call Res) (q : Process) : Prop :=
  ∀ tx c next, q.stage = .waiting tx c next →
    ∃ (t : Tx Db DbLock Err Call Res) (x : Inputs), pool.txns[tx]? = some t ∧
      c.call x = some t.call

theorem Linked.does (h : Linked pool q) (hd : Sys.Does Call.body pool a pool') :
    Linked pool' q := by
  intro tx c next hstage
  obtain ⟨t, x, ht, hcall⟩ := h tx c next hstage
  obtain ⟨t', ht', hsame⟩ := hd.call_eq ht
  exact ⟨t', x, ht', hsame ▸ hcall⟩

/-- The invariant of the system. -/
structure Solvent (s : State) : Prop where
  books : Books s.pool
  linked : ∀ q ∈ s.processes, Linked s.pool q
  obeys : Obeys metering s.db s

variable {srv : Server} {s s' : State}

/-- What the database says of a tenant's quota, and of the tenant of a node. -/
theorem told_reply (x : Inputs) (hc : c.call x = none) :
    metering.told s.db c (s.reply srv x c) := by
  cases c with
  | getTenantQuota t =>
    dsimp only [State.reply]
    split
    · next r hr => exact ⟨r, hr, rfl⟩
    · exact True.intro
  | validateFileNode t n =>
    dsimp only [State.reply]
    split
    · next r hr =>
      obtain ⟨hrow, htenant⟩ := Option.filter_eq_some_iff.1 hr
      split
      · show s.db.nodeTenant n = some t
        rw [nodeTenant, hrow, Option.map_some, beq_iff_eq.1 htenant]
      · exact True.intro
    · exact True.intro
  | createFileNode t p name => cases hc
  | _ => exact True.intro

/-- The answers tell the truth. -/
theorem Solvent.told (hs : Solvent s) (hq : q ∈ s.processes) (hx : Answers srv s q.stage c x) :
    metering.told s.db c x := by
  have hlinked := hs.linked q hq
  generalize hstage : q.stage = stage at hx
  cases hx with
  | refused e => cases c <;> exact True.intro
  | replied x hcall => exact told_reply x hcall
  | @served tx c next t r ht hphase =>
    cases c with
    | createFileNode tenant p name =>
      obtain ⟨t', y, ht', hcall⟩ := hlinked _ _ _ hstage
      obtain rfl := Option.some.inj (ht.symm.trans ht')
      obtain ⟨e, he, hsame⟩ := hs.books.recorded tx t r ht hphase
      have hnew : t.call = .createFileNode ⟨y.id, tenant, p, name, .file⟩ :=
        (Option.some.inj hcall).symm
      rw [hnew]
      exact hs.books.good.inv.placed e he _ (hsame.trans hnew)
    | _ => exact True.intro

/-- A request that opens a session has approval for it. -/
theorem Solvent.fit_of_call (hs : Solvent s) (hq : q ∈ s.processes) {call : Call}
    (hprog : q.stage.prog = .call c next) (hcall : c.call x = some call) : call.Fit s.db := by
  rintro a rfl
  have hkeeps := hs.obeys q hq
  rw [hprog] at hkeeps
  have hmay := (hkeeps s.db (metering.refl _)).1
  cases c with
  | createUploadSession t n size chunks =>
    cases hcall
    exact hmay
  | _ => cases hcall

/-- **One metered action** keeps the invariant. -/
theorem Solvent.step (hs : Solvent s) (hm : metered s a = true) (hstep : s.step srv a = some s') :
    Solvent s' := by
  have hd := does_of_step hstep
  have hobeys : Retains s.db s'.db → Obeys metering s'.db s' := fun hgrow =>
    hs.obeys.does hd hgrow (handle_meters _) fun hq hx => hs.told hq hx
  have hput : ∀ {pool : Sys Db DbLock Err Call Res} {i : Nat} {q' : Process},
      (∀ q ∈ s.processes, Linked pool q) → Linked pool q' →
      ∀ q ∈ s.processes.set i q', Linked pool q := by
    intro pool i q' hold hq' q hq
    rcases List.mem_or_eq_of_mem_set hq with hq | rfl
    · exact hold q hq
    · exact hq'
  cases hd with
  | receive r =>
    refine ⟨hs.books, fun q hq => ?_, hobeys (Retains.refl _)⟩
    rcases List.mem_append.1 hq with hq | hq
    · exact hs.linked q hq
    · obtain rfl := List.mem_singleton.1 hq
      exact nofun
  | @start i x req c next call pool hi hcall hp =>
    have hpd := Sys.does_of_step hp
    have hfit := hs.fit_of_call (List.mem_of_getElem? hi) rfl hcall
    obtain ⟨hbooks, hretains⟩ := hs.books.does hpd (by rintro _ ⟨⟩; exact hfit)
      fun _ h => nomatch h
    refine ⟨hbooks, hput (fun q hq => (hs.linked q hq).does hpd) ?_, hobeys hretains⟩
    rintro tx c' next' ⟨⟩
    cases hp
    exact ⟨_, x, List.getElem?_concat_length, hcall⟩
  | answer hi hprog hx =>
    exact ⟨hs.books, hput hs.linked nofun, hobeys (Retains.refl _)⟩
  | @txn _ pa pool hact hp =>
    have hpd := Sys.does_of_step hp
    obtain ⟨hbooks, hretains⟩ := hs.books.does hpd
      (by rintro c rfl; cases a <;> cases hact)
      (by
        rintro i rfl t ht
        cases a with
        | commit j =>
          cases hact
          rwa [metered, ht, Option.all_some] at hm
        | _ => cases hact)
    exact ⟨hbooks, fun q hq => (hs.linked q hq).does hpd, hobeys hretains⟩
  | upload => exact ⟨hs.books, hs.linked, hobeys (Retains.refl _)⟩

/-- **The versions of a tenant stay within its quota**, in every run in which, whenever a session is
opened for a tenant with a quota, `used_bytes` covers the versions and the open sessions of the
tenant and does not wrap around with the declared size. -/
theorem committed_within_quota {tenants : Table Uuid TenantRow} {nodes : Table Uuid NodeRow}
    {acts : List Act}
    (hm : Run.throughout (State.step srv) metered (.init (Db.seed tenants nodes ∅)) acts = true)
    (hrun : (State.init (Db.seed tenants nodes ∅)).run srv acts = some s)
    {t : Uuid} {r : TenantRow} (hr : s.db.tenants.lookup t = some r)
    (hq : 0 < r.storageQuotaBytes) : s.db.committedBytes t ≤ r.storageQuotaBytes := by
  have hs : Solvent s := Run.run_induction (I := Solvent) (fun hs hok h => hs.step hok h)
    ⟨books_init tenants nodes, fun _ hq => absurd hq List.not_mem_nil, obeys_init _⟩ hm hrun
  have hopen : 0 ≤ s.db.openBytes t := hs.books.open_nonneg t
  have hdeclared : s.db.committedBytes t + s.db.openBytes t = s.db.declaredBytes t :=
    hs.books.declared t
  have hwithin : s.db.declaredBytes t ≤ r.storageQuotaBytes := hs.books.within t r hr hq
  omega

/-! ## Two uploads -/

/-- A server without a blob store and an event bus, and `uuid.Parse` on the ids in use. -/
def plainServer : Server where
  blob := false
  events := false
  endpointId := []
  parseUuid t := [1, 2, 3, 4].find? fun u : Uuid => u.text == t
  etagOf _ := []

/-- A tenant with a quota of ten bytes. -/
def quotaTen : Table Uuid TenantRow := AList.singleton 1 ⟨10, 0⟩

/-- An upload of six bytes. -/
def initiateSix : InitiateRequest where
  tenantId := Uuid.text 1
  fileName := ['f']
  parentId := none
  nodeId := some (Uuid.text 2)
  totalSize := 6
  chunks := [⟨hexText 64 7, 6⟩]

def commitSix (sid : Uuid) : CommitRequest where
  sessionId := Uuid.text sid
  contentSha256 := hexText 64 9
  mimeType := []
  blocks := [⟨hexText 64 7, 0, 0, 6, []⟩]

/-- The `i`-th request opens session `sid` after `calls` calls, by transaction `i`. -/
def openSix (i calls : Nat) (sid : Uuid) : List Act :=
  .receive (.initiate initiateSix) :: List.replicate calls (call i sid) ++
    [.exec i, .exec i, .exec i, .commit i, call i sid]

/-- The `i`-th request commits session `sid` as version `v`, by transaction `i`. -/
def closeSix (i execs : Nat) (sid v : Uuid) : List Act :=
  .receive (.commit 0 (commitSix sid)) :: List.replicate 2 (call i v) ++
    List.replicate execs (.exec i) ++ .commit i :: List.replicate 2 (call i v)

theorem committed_within_quota_openSix :
    ∃ s r, (State.init (Db.seed quotaTen fileTwo ∅)).run plainServer
        (openSix 0 5 3 ++ closeSix 1 15 3 5) = some s ∧ s.db.tenants.lookup 1 = some r ∧
      0 < r.storageQuotaBytes ∧ s.db.committedBytes 1 ≤ r.storageQuotaBytes := by
  have hrun : ((State.init (Db.seed quotaTen fileTwo ∅)).run plainServer
      (openSix 0 5 3 ++ closeSix 1 15 3 5)).bind (fun s =>
        (s.db.tenants.lookup 1).map fun r => (s.db.committedBytes 1, r.storageQuotaBytes)) =
      some (6, 10) := by
    decide +kernel
  have hm : Run.throughout (State.step plainServer) metered
      (.init (Db.seed quotaTen fileTwo ∅)) (openSix 0 5 3 ++ closeSix 1 15 3 5) = true := by
    decide +kernel
  obtain ⟨s, hs, hrow⟩ := Option.bind_eq_some_iff.1 hrun
  obtain ⟨r, hr, -, hquota⟩ := exists_of_map_eq_pair hrow
  have hpos : 0 < r.storageQuotaBytes := by omega
  exact ⟨s, r, hs, hr, hpos, committed_within_quota hm hs hr hpos⟩

/-- Two uploads of six bytes, each within the quota, are opened and committed one after the
other. -/
def twiceSix : List Act :=
  openSix 0 5 3 ++ closeSix 1 15 3 5 ++ openSix 2 4 4 ++ closeSix 3 14 4 6

/-- The versions of the tenant take twelve bytes of a quota of ten. -/
theorem quota_exceeded_twiceSix :
    ∃ s r, (State.init (Db.seed quotaTen fileTwo ∅)).run plainServer twiceSix = some s ∧
      s.db.tenants.lookup 1 = some r ∧ 0 < r.storageQuotaBytes ∧
      r.storageQuotaBytes < s.db.committedBytes 1 := by
  have hrun : ((State.init (Db.seed quotaTen fileTwo ∅)).run plainServer twiceSix).bind (fun s =>
      (s.db.tenants.lookup 1).map fun r => (s.db.committedBytes 1, r.storageQuotaBytes)) =
      some (12, 10) := by
    decide +kernel
  obtain ⟨s, hs, hrow⟩ := Option.bind_eq_some_iff.1 hrun
  obtain ⟨r, hr, hcommitted, hquota⟩ := exists_of_map_eq_pair hrow
  exact ⟨s, r, hs, hr, by omega, by omega⟩

end Aegis.Ingress.Handlers
