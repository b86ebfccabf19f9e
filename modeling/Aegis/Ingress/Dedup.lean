import Aegis.Ingress.Serving

/-!
# Blocks that need no upload

`handleInitiate` gives no URL for a block whose hash has a row in the registry, and a row is there
once a `CommitFile` that names the hash has committed. Nothing on the way asks the blob store: the
row is inserted whether or not the client has put the block, and it stays when the verification
after the commit fails. So a client that leaves out a PUT and commits makes the next client skip the
block too. Where every `CommitFile` transaction commits only blocks that are in the blob store by
then, a block that `handleInitiate` gives no URL for is there.
-/

namespace Aegis.Ingress.Handlers

open Db Stmt Txn Txn.Prog

/-! ## The registry -/

/-- Rows are added only for the blocks of a commit. -/
def Registers (c : Call) (d d' : Db) : Prop :=
  ∀ h, hasBlock h d' = true → hasBlock h d = true ∨
    ∃ a b, c = .commitFile a ∧ b ∈ a.blocks ∧ b.blockHash = h

theorem Registers.refl (c : Call) (d : Db) : Registers c d d := fun _ h => .inl h

theorem Registers.trans (h : Registers c d₁ d₂) (h' : Registers c d₂ d₃) : Registers c d₁ d₃ := by
  intro k hk
  rcases h' k hk with hk | hnew
  · exact h k hk
  · exact .inr hnew

theorem registers_of_blocks_eq (h : d'.blocks = d.blocks) : Registers c d d' := by
  intro k hk
  rw [hasBlock, h] at hk
  exact .inl hk

/-- An UPDATE of a row adds none. -/
theorem registers_modify : Registers c d { d with blocks := Table.modify k f d.blocks } := by
  intro h hh
  simp only [hasBlock, Table.lookup_modify] at hh ⊢
  split at hh
  · exact .inl (by simpa using hh)
  · exact .inl hh

theorem body_registers (c : Call) : c.body.Within (Registers c) := by
  refine c.body_uses.within fun f hw d => ?_
  cases hw with
  | skip => exact Registers.refl _ d
  | node _ | session _ => exact registers_of_blocks_eq rfl
  | verified h => exact registers_modify
  | @file a f hw =>
    cases hw with
    | skip => exact Registers.refl _ d
    | fileVersion _ _ _ | fileManifest _ | fileSession => exact registers_of_blocks_eq rfl
    | fileRef _ => exact registers_modify
    | @fileBlock _ b hb =>
      intro h hh
      simp only [hasBlock, insertBlock, Table.lookup_insert_eq] at hh ⊢
      split at hh
      · next heq => exact .inr ⟨a, b, rfl, hb, heq.symm⟩
      · exact .inl hh

/-! ## Rows and objects -/

/-- The key text under which the block of a row is expected in the blob store. -/
def objectText (h : Hash) : List Char := hexText 64 h.toNat

/-- There is an object under the text. -/
def stored (objects : Table (List Char) (List UInt8)) (t : List Char) : Bool :=
  (objects.lookup t).isSome

theorem stored_refl (objects : Table (List Char) (List UInt8)) :
    ∀ t, stored objects t = true → stored objects t = true :=
  fun _ h => h

theorem stored_insert (objects : Table (List Char) (List UInt8)) (blockHash : List Char)
    (bytes : List UInt8) :
    ∀ t, stored objects t = true → stored (objects.insert blockHash bytes) t = true := by
  intro t ht
  rw [stored, Table.lookup_insert_eq]
  split
  · rfl
  · exact ht

theorem stored_trans (h : ∀ t, stored o₁ t = true → stored o₂ t = true)
    (h' : ∀ t, stored o₂ t = true → stored o₃ t = true) :
    ∀ t, stored o₁ t = true → stored o₃ t = true :=
  fun t ht => h' t (h t ht)

/-- A `CommitFile` transaction that commits does so when its blocks are in the blob store. -/
def uploaded (s : State) : Act → Bool
  | .commit i => (s.pool.txns[i]?).all fun t =>
    match t.call with
    | .commitFile a => a.blocks.all fun b => stored s.objects (objectText b.blockHash)
    | _ => true
  | _ => true

/-- What an answer tells of the blob store: the blocks that the registry is said to have are
there. -/
def deduplicates : Contract Cmd Answer (Table (List Char) (List UInt8)) where
  grows o o' := ∀ t, stored o t = true → stored o' t = true
  may _ _ := True
  told o c a :=
    match c, a with
    | .batchQueryExistingCas _, .ok existing =>
      ∀ t, t ∈ (show List (List Char) from existing) → stored o t = true
    | _, _ => True
  refl := stored_refl
  trans := @stored_trans

/-- **The invariant**: every row of the registry has its object, and the requests have been told
nothing else. -/
structure Backed (s : State) : Prop where
  bounded : Sys.Bounded Registers s.pool
  rows : ∀ h, hasBlock h s.db = true → stored s.objects (objectText h) = true
  obeys : Obeys deduplicates s.objects s

theorem backed_init (tenants : Table Uuid TenantRow) (nodes : Table Uuid NodeRow) :
    Backed (.init (Db.seed tenants nodes ∅)) where
  bounded := Sys.bounded_init _
  rows := fun _ h => nomatch h
  obeys := obeys_init _

variable {srv : Server} {s s' : State}

theorem handle_deduplicates (o : Table (List Char) (List UInt8)) (r : Request) :
    Serves deduplicates (fun w resp => r.Met deduplicates w resp) (handle srv r) o :=
  handle_serves (fun _ _ _ => trivial) (fun _ _ _ _ _ => trivial) (fun _ _ _ _ _ _ => trivial)
    (fun _ _ _ _ _ _ => trivial) r

/-- The query answers by rows, and rows have objects. -/
theorem Backed.told (hs : Backed s) (hx : Answers srv s q c x) :
    deduplicates.told s.objects c x := by
  cases hx with
  | refused e => cases c <;> trivial
  | replied x hcall =>
    cases c with
    | batchQueryExistingCas hashes =>
      intro t ht
      obtain ⟨h, hh, rfl⟩ := List.mem_map.1 ht
      obtain ⟨r, hr, -⟩ := Table.mem_keysWhere.1 hh
      refine hs.rows h ?_
      rw [hasBlock, hr, Option.isSome_some]
    | _ => trivial
  | served ht hphase =>
    cases c with
    | batchQueryExistingCas hashes => trivial
    | _ => trivial

/-- A step of the pool: what it commits has been uploaded. -/
theorem Backed.rows_step (hs : Backed s) (hd : Sys.Does Call.body s.pool a pool)
    (hup : ∀ i, a = .commit i → uploaded s (.commit i) = true) (h : Hash)
    (hh : hasBlock h pool.world.db = true) : stored s.objects (objectText h) = true := by
  rcases hd.db_eq with hdb | ⟨i, c, held, eff, r, rfl, hi, hdb⟩
  · rw [hdb] at hh
    exact hs.rows h hh
  · rw [hdb] at hh
    rcases (hs.bounded i _ hi).1 _ h hh with hold | ⟨a, b, rfl, hb, rfl⟩
    · exact hs.rows h hold
    · have hall := hup i rfl
      rw [uploaded, hi, Option.all_some, List.all_eq_true] at hall
      exact hall b hb

/-- **One action** keeps the invariant, if what it commits has been uploaded. -/
theorem Backed.step (hs : Backed s) (hup : uploaded s a = true) (hstep : s.step srv a = some s') :
    Backed s' := by
  have hd := does_of_step hstep
  have hobeys : (∀ t, stored s.objects t = true → stored s'.objects t = true) →
      Obeys deduplicates s'.objects s' := fun hgrow =>
    hs.obeys.does hd hgrow (handle_deduplicates _) fun _ hx => hs.told hx
  have hpool : ∀ {pa : Action Call} {pool : Sys Db DbLock Err Call Res},
      s.pool.step Call.body pa = some pool → Sys.Bounded Registers pool := fun h =>
    hs.bounded.does Registers.refl Registers.trans body_registers (Sys.does_of_step h)
  cases hd with
  | receive r => exact ⟨hs.bounded, hs.rows, hobeys fun _ h => h⟩
  | start hi hcall hp =>
    have hrows := hs.rows_step (Sys.does_of_step hp) fun _ h => nomatch h
    exact ⟨hpool hp, hrows, hobeys fun _ h => h⟩
  | answer hi hprog hx => exact ⟨hs.bounded, hs.rows, hobeys fun _ h => h⟩
  | @txn _ pa pool hact hp =>
    refine ⟨hpool hp, hs.rows_step (Sys.does_of_step hp) ?_, hobeys fun _ h => h⟩
    rintro i rfl
    cases a with
    | commit j =>
      cases hact
      exact hup
    | _ => cases hact
  | @upload blockHash bytes =>
    have hgrow := stored_insert s.objects blockHash bytes
    exact ⟨hs.bounded, fun h hh => hgrow _ (hs.rows h hh), hobeys hgrow⟩

/-- **A block without a URL is in the blob store**, in every run from an empty store in which every
`CommitFile` transaction commits only blocks that are there by then. -/
theorem spared_block_stored {tenants : Table Uuid TenantRow} {nodes : Table Uuid NodeRow}
    {acts : List Act}
    (hup : Run.throughout (State.step srv) uploaded (.init (Db.seed tenants nodes ∅)) acts = true)
    (hrun : (State.init (Db.seed tenants nodes ∅)).run srv acts = some s)
    {q : Process} (hq : q ∈ s.processes) {req : InitiateRequest} (hreq : q.request = .initiate req)
    {resp : InitiateResponse} (hresp : q.stage.response = some (.ok (.initiated resp)))
    {c : ChunkInfo} (hc : c ∈ req.chunks)
    (hno : c.blockHash ∉ resp.uploadUrls.map UploadUrl.blockHash) :
    stored s.objects c.blockHash = true := by
  have hs : Backed s := Run.run_induction (I := Backed) (fun hs hok h => hs.step hok h)
    (backed_init tenants nodes) hup hrun
  have hspared := hs.obeys.met hq hresp
  rw [hreq] at hspared
  obtain ⟨hashes, existing, ⟨o, hgrow, htold⟩, hall⟩ := hspared
  exact hgrow _ (htold _ (hall c hc hno))

/-! ## Two uploads of one block -/

/-- A server with a blob store, and `uuid.Parse` on the ids in use. No client sends the ETag, so no
block is marked as verified. -/
def oneTenant : Server where
  blob := true
  events := true
  endpointId := []
  parseUuid t := [1, 2, 3].find? fun u : Uuid => u.text == t
  etagOf _ := ['e']

/-- A tenant with a root directory and a file. -/
def tenantOne : Table Uuid TenantRow := AList.singleton 1 ⟨100, 0⟩

def fileTwo : Table Uuid NodeRow :=
  (AList.singleton 9 ⟨1, none, ['r'], .directory, [Uuid.nodeLabel 9], 1, false⟩ :
    Table Uuid NodeRow).insert 2
      ⟨1, some 9, ['f'], .file, [Uuid.nodeLabel 9, Uuid.nodeLabel 2], 1, false⟩

def initiateSeven : InitiateRequest where
  tenantId := Uuid.text 1
  fileName := ['f']
  parentId := none
  nodeId := some (Uuid.text 2)
  totalSize := 4
  chunks := [⟨hexText 64 7, 4⟩]

def commitSeven : CommitRequest where
  sessionId := Uuid.text 3
  contentSha256 := hexText 64 9
  mimeType := []
  blocks := [⟨hexText 64 7, 0, 0, 4, []⟩]

/-- The next call of request `i` goes through, with `id` for a generated identifier. -/
def call (i : Nat) (id : Uuid) : Act := .advance i (.ok ⟨id, 0, 0, 50, ['u']⟩)

/-- The first client is given a URL for the block and session 3. -/
def initiateFirst : List Act :=
  .receive (.initiate initiateSeven) :: List.replicate 5 (call 0 3) ++
    [.exec 0, .exec 0, .exec 0, .commit 0, call 0 3]

/-- It commits the session. -/
def commitFirst : List Act :=
  .receive (.commit 0 commitSeven) :: List.replicate 2 (call 1 5) ++
    List.replicate 15 (.exec 1) ++ .commit 1 :: List.replicate 4 (call 1 5)

/-- The second client asks for the same block, and is given session 4. -/
def initiateSecond : List Act :=
  .receive (.initiate initiateSeven) :: List.replicate 4 (call 2 4) ++
    [.exec 2, .exec 2, .exec 2, .commit 2, call 2 4]

/-- The first client puts the block before it commits. -/
def putThenCommit : List Act :=
  initiateFirst ++ .upload (hexText 64 7) [1, 2, 3, 4] :: commitFirst ++ initiateSecond

theorem spared_block_stored_putThenCommit :
    ∃ s q, (State.init (Db.seed tenantOne fileTwo ∅)).run oneTenant putThenCommit = some s ∧
      s.processes[2]? = some q ∧ q.stage.response = some (.ok (.initiated ⟨4, 2, 50, []⟩)) ∧
      stored s.objects (hexText 64 7) = true := by
  have hrun : ((State.init (Db.seed tenantOne fileTwo ∅)).run oneTenant putThenCommit).bind
      (fun s => (s.processes[2]?).map fun q => (q.request, q.stage.response)) =
      some (Request.initiate initiateSeven,
        some (Except.ok (Response.initiated ⟨4, 2, 50, []⟩))) := by
    decide +kernel
  have hup : Run.throughout (State.step oneTenant) uploaded
      (.init (Db.seed tenantOne fileTwo ∅)) putThenCommit = true := by
    decide +kernel
  obtain ⟨s, hs, hq⟩ := Option.bind_eq_some_iff.1 hrun
  obtain ⟨q, hi, hreq, hresp⟩ := exists_of_map_eq_pair hq
  exact ⟨s, q, hs, hi, hresp, spared_block_stored hup hs (List.mem_of_getElem? hi) hreq hresp
    (c := ⟨hexText 64 7, 4⟩) List.mem_cons_self List.not_mem_nil⟩

/-- The first client commits without having put the block. -/
def commitWithoutPut : List Act := initiateFirst ++ commitFirst ++ initiateSecond

/-- The second client is given no URL for a block that nobody has put. -/
theorem spared_block_missing_commitWithoutPut :
    ∃ s q resp, (State.init (Db.seed tenantOne fileTwo ∅)).run oneTenant commitWithoutPut = some s ∧
      q ∈ s.processes ∧ q.request = .initiate initiateSeven ∧
      q.stage.response = some (.ok (.initiated resp)) ∧
      ∃ c ∈ initiateSeven.chunks, c.blockHash ∉ resp.uploadUrls.map UploadUrl.blockHash ∧
        stored s.objects c.blockHash = false := by
  have hrun : ((State.init (Db.seed tenantOne fileTwo ∅)).run oneTenant commitWithoutPut).bind
      (fun s => (s.processes[2]?).map fun q =>
        (q.request, q.stage.response, stored s.objects (hexText 64 7))) =
      some (Request.initiate initiateSeven,
        some (Except.ok (Response.initiated ⟨4, 2, 50, []⟩)), false) := by
    decide +kernel
  obtain ⟨s, hs, hq⟩ := Option.bind_eq_some_iff.1 hrun
  obtain ⟨q, hi, hreq, hq⟩ := exists_of_map_eq_pair hq
  obtain ⟨hresp, hstored⟩ := Prod.mk.inj hq
  exact ⟨s, q, _, hs, List.mem_of_getElem? hi, hreq, hresp, ⟨hexText 64 7, 4⟩, List.mem_cons_self,
    List.not_mem_nil, hstored⟩

end Aegis.Ingress.Handlers
