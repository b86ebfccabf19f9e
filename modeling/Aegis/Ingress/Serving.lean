import Aegis.Ingress.Handlers

/-!
# Handlers under a contract

Which requests the validators accept (`InitiateRequest.validate_eq_ok_iff`), what one action of the
ingest system does, by cases (`Does`), and what the two handlers do whatever else happens while they
run, in terms of what they have been told: `handleInitiate` opens a session only after it was told a
quota that the declared size does not exceed and a node of the tenant, and it gives out URLs for all
blocks but those that the registry was said to have. A property of whole runs is then a `Contract`:
how the state can grow, and what an answer given in a state tells of it (`Obeys.does`).
-/

namespace Aegis.Ingress.Handlers

open Db Stmt Txn Txn.Prog Handler

/-! ## What the validators accept -/

/-- A hash and a size that the server accepts. -/
structure Listed (blockHash : List Char) (sizeBytes : Int) : Prop where
  length : byteLen blockHash = 64
  decodes : (decodeHash blockHash).isSome
  positive : 0 < sizeBytes

/-- What passes a check that answers with an error. -/
theorem guard_eq_ok_iff {c : Prop} [Decidable c] {p : Except ε α} :
    (if c then .error e else p) = .ok a ↔ ¬ c ∧ p = .ok a := by
  by_cases h : c <;> simp [h]

theorem validateBlock_eq_ok_iff (label : String) (i : Nat) (blockHash : List Char)
    (sizeBytes : Int) :
    validateBlock label i blockHash sizeBytes = .ok () ↔ Listed blockHash sizeBytes := by
  simp only [validateBlock, guard_eq_ok_iff, not_ne_iff, Option.isNone_iff_eq_none,
    ← Option.isSome_iff_ne_none, not_le, and_true]
  exact ⟨fun h => ⟨h.1, h.2.1, h.2.2⟩, fun h => ⟨h.length, h.decodes, h.positive⟩⟩

/-- **The validators accept** a list of blocks if they accept each. -/
theorem validateBlocks_eq_ok_iff (label : String) (i : Nat) (l : List (List Char × Int)) :
    validateBlocks label i l = .ok () ↔ ∀ b ∈ l, Listed b.1 b.2 := by
  induction l generalizing i with
  | nil => exact ⟨fun _ => nofun, fun _ => rfl⟩
  | cons b l ih =>
    obtain ⟨blockHash, sizeBytes⟩ := b
    rw [validateBlocks, List.forall_mem_cons, ← ih (i + 1),
      ← validateBlock_eq_ok_iff label i blockHash sizeBytes]
    cases validateBlock label i blockHash sizeBytes with
    | error e => exact ⟨nofun, nofun⟩
    | ok u => exact ⟨fun h => ⟨rfl, h⟩, fun h => h.2⟩

theorem CommitRequest.validate_eq_ok_iff (r : CommitRequest) :
    r.validate = .ok () ↔ r.sessionId ≠ [] ∧ byteLen r.contentSha256 = 64 ∧
      (decodeHash r.contentSha256).isSome ∧ ∀ b ∈ r.blocks, Listed b.blockHash b.sizeBytes := by
  simp only [validate, guard_eq_ok_iff, validateBlocks_eq_ok_iff, List.forall_mem_map, not_ne_iff,
    Option.isNone_iff_eq_none, ← Option.isSome_iff_ne_none]

theorem InitiateRequest.validate_eq_ok_iff (r : InitiateRequest) :
    r.validate = .ok () ↔ r.tenantId ≠ [] ∧ r.fileName ≠ [] ∧ 0 < r.totalSize ∧ r.chunks ≠ [] ∧
      ∀ c ∈ r.chunks, Listed c.blockHash c.sizeBytes := by
  simp only [validate, guard_eq_ok_iff, validateBlocks_eq_ok_iff, List.forall_mem_map, not_le]

/-! ## What the transactions write -/

/-- The changes that the statements of a call make; `skip` is a statement that changes nothing. -/
inductive Call.Writes : Call → (Db → Db) → Prop
  | skip {c : Call} : Writes c id
  | node {a : Namespace.NewNode} {r : NodeRow} : r.tenantId = a.tenantId →
    Writes (.createFileNode a) (Db.insertNode a.nodeId r)
  | session (a : NewSession) : Writes (.createUploadSession a) (insertSession a.sessionId a.row)
  | file {a : CommitFile} {f : Db → Db} : Ingress.Call.Writes (.commit (.file a)) f →
    Writes (.commitFile a) f
  | verified (h : Hash) : Writes (.markBlockVerified h) (Db.verifyBlock h)

section

variable {W : (Db → Db) → Prop} (hid : W id)
include hid

theorem lineageGuardInsert_uses : (Namespace.lineageGuardInsert n t p).unmarked.Uses W := by
  cases p with
  | none => exact Uses.ret
  | some p =>
    rw [Namespace.lineageGuardInsert, bind_eq, unmarked_bind]
    refine (Uses.unmarked_stmt fun _ => hid).bind fun v => ?_
    split
    · exact Uses.raise
    · refine Uses.unmarked (W := W) (Uses.check.bind fun _ => Uses.check.bind fun _ => ?_)
      exact Uses.check.bind fun _ => Uses.check.bind fun _ => Uses.ret

theorem insertNodeRow_uses (hw : W (Db.insertNode n r)) : (Namespace.insertNodeRow n r).Uses W := by
  refine Uses.check.bind fun _ => Uses.check.bind fun _ => ?_
  refine (Uses.stmt (fun _ => List.Subset.refl _) fun _ => hw).bind fun _ => ?_
  refine Uses.check.bind fun _ => Uses.check.bind fun _ => Uses.check.bind fun _ => ?_
  refine (references_uses hid).bind fun _ => ?_
  cases r.parentId with
  | none => exact Uses.ret
  | some p => exact references_uses hid

end

/-- Without its marks, the INSERT of a node is the path from the trigger and then the row. -/
theorem unmarked_insertNode (a : Namespace.NewNode) :
    (Namespace.insertNode a).unmarked = (Namespace.varchar255 a.name).bind fun name =>
      (Namespace.lineageGuardInsert a.nodeId a.tenantId a.parentId).unmarked.bind fun path =>
        Namespace.insertNodeRow a.nodeId
          ⟨a.tenantId, a.parentId, name, a.type, path, 1, false⟩ := by
  have hname : (Namespace.varchar255 a.name).Uses fun _ => True :=
    Uses.check.bind fun _ => Uses.ret
  have hrow : ∀ r, (Namespace.insertNodeRow a.nodeId r).Uses fun _ => True :=
    fun r => insertNodeRow_uses trivial trivial
  rw [Namespace.insertNode, bind_eq, unmarked_bind, hname.unmarked_eq]
  simp only [bind_eq, unmarked_bind, (hrow _).unmarked_eq]

/-- **A call writes what `Writes` says.** -/
theorem Call.body_uses (c : Call) : c.body.Uses c.Writes := by
  cases c with
  | createFileNode a =>
    refine Uses.bind ?_ fun _ => Uses.ret
    rw [unmarked_insertNode]
    refine Uses.bind (Uses.check.bind fun _ => Uses.ret) fun name => ?_
    refine (lineageGuardInsert_uses .skip).bind fun path => ?_
    exact insertNodeRow_uses .skip (.node rfl)
  | createUploadSession a =>
    refine Uses.bind ?_ fun _ => Uses.ret
    refine Uses.check.bind fun _ => Uses.check.bind fun _ => Uses.check.bind fun _ => ?_
    refine (Uses.stmt (fun _ => List.Subset.refl _) fun _ => .session a).bind fun _ => ?_
    refine Uses.check.bind fun _ => (references_uses .skip).bind fun _ => ?_
    exact references_uses .skip
  | commitFile a =>
    exact (commitFile_uses.mono fun _ => .file).bind fun _ => Uses.ret
  | markBlockVerified h =>
    refine Uses.bind ?_ fun _ => Uses.ret
    refine (Uses.read .skip).bind fun _ => Uses.ite (fun _ => ?_) fun _ => Uses.ret
    exact (rewriteRow_uses .skip (.verified h)).bind fun _ => Uses.ret

/-! ## What an action can do -/

/-- The action of the pool that an action is. -/
def Act.action : Act → Option (Action Call)
  | .exec i => some (.exec i)
  | .commit i => some (.commit i)
  | .abort i => some (.abort i)
  | _ => none

/-- How a handler comes by an answer: the call fails, it is answered at once, or its transaction has
committed. -/
inductive Answers (srv : Server) (s : State) : Stage → (c : Cmd) → Answer c → Prop
  | refused {q : Stage} {c : Cmd} (e : IngressErr) : Answers srv s q c (.error e)
  | replied {p : Proc Cmd Answer (Except IngressErr Response)} {c : Cmd} (x : Inputs) :
      c.call x = none → Answers srv s (.running p) c (s.reply srv x c)
  | served {tx : Nat} {c : Cmd} {next : Answer c → Proc Cmd Answer (Except IngressErr Response)}
      {t : Tx Db DbLock Err Call Res} {r : Res} :
      s.pool.txns[tx]? = some t → t.phase = .committed r →
      Answers srv s (.waiting tx c next) c (c.accept t.call r)

/-- What one action does, by cases. -/
inductive Does (srv : Server) (s : State) : Act → State → Prop
  | receive (r : Request) :
      Does srv s (.receive r) { s with processes := s.processes ++ [⟨r, .running (handle srv r)⟩] }
  | start {i : Nat} {x : Inputs} {req : Request} {c : Cmd}
      {next : Answer c → Proc Cmd Answer (Except IngressErr Response)} {call : Call}
      {pool : Sys Db DbLock Err Call Res} :
      s.processes[i]? = some ⟨req, .running (.call c next)⟩ → c.call x = some call →
      s.pool.step Call.body (.start call) = some pool →
      Does srv s (.advance i (.ok x))
        (State.put { s with pool := pool } i ⟨req, .waiting s.pool.txns.length c next⟩)
  | answer {i : Nat} {o : Outcome} {q : Process} {c : Cmd}
      {next : Answer c → Proc Cmd Answer (Except IngressErr Response)} {a : Answer c} :
      s.processes[i]? = some q → q.stage.prog = .call c next → Answers srv s q.stage c a →
      Does srv s (.advance i o) (s.put i ⟨q.request, .running (next a)⟩)
  | txn {a : Act} {pa : Action Call} {pool : Sys Db DbLock Err Call Res} :
      a.action = some pa → s.pool.step Call.body pa = some pool →
      Does srv s a { s with pool := pool }
  | upload {blockHash : List Char} {bytes : List UInt8} :
      Does srv s (.upload blockHash bytes) { s with objects := s.objects.insert blockHash bytes }

variable {srv : Server} {s s' : State}

theorem does_of_advance (h : s.advance srv i o = some s') : Does srv s (.advance i o) s' := by
  rw [State.advance] at h
  split at h
  · next req c next hi =>
    split at h
    · cases h
      exact .answer hi rfl (.refused _)
    · next x =>
      split at h
      · next call hcall =>
        rw [State.txn, Option.map_map, Option.map_eq_some_iff] at h
        obtain ⟨pool, hpool, rfl⟩ := h
        exact .start hi hcall hpool
      · next hcall =>
        cases h
        exact .answer hi rfl (.replied x hcall)
  · next req tx c next hi =>
    split at h
    · cases h
      exact .answer hi rfl (.refused _)
    · rw [Option.map_eq_some_iff] at h
      obtain ⟨a, ha, rfl⟩ := h
      rw [Option.bind_eq_some_iff] at ha
      obtain ⟨t, ht, ha⟩ := ha
      refine .answer hi rfl ?_
      cases hphase : t.phase with
      | running p => simp [Cmd.result, hphase] at ha
      | committed r =>
        rw [Cmd.result, hphase] at ha
        cases ha
        exact .served ht hphase
      | failed e =>
        rw [Cmd.result, hphase] at ha
        cases ha
        exact .refused _
      | aborted =>
        rw [Cmd.result, hphase] at ha
        cases ha
        exact .refused _
  · cases h

/-- An action that is taken does one of these. -/
theorem does_of_step (h : s.step srv a = some s') : Does srv s a s' := by
  cases a with
  | receive r =>
    cases h
    exact .receive r
  | advance i o => exact does_of_advance h
  | exec i | commit i | abort i =>
    obtain ⟨pool, hpool, rfl⟩ := Option.map_eq_some_iff.1 h
    exact .txn rfl hpool
  | upload blockHash bytes =>
    rw [State.step] at h
    split at h
    · cases h
      exact .upload
    · cases h

/-- An action leaves the transactions alone, or is a step of theirs. -/
theorem Does.pool_eq (h : Does srv s a s') :
    s'.pool = s.pool ∨ ∃ pa, Sys.Does Call.body s.pool pa s'.pool := by
  cases h with
  | receive r => exact .inl rfl
  | start _ _ hpool => exact .inr ⟨_, Sys.does_of_step hpool⟩
  | answer _ _ _ => exact .inl rfl
  | txn _ hpool => exact .inr ⟨_, Sys.does_of_step hpool⟩
  | upload => exact .inl rfl

/-! ## Handlers under a contract -/

section Contracts

variable {W α β : Type} (K : Contract Cmd Answer W)

/-- The piece meets the contract, and returns a value only where `Q` holds. -/
def Serves (Q : W → α → Prop) (p : Handler α) (w : W) : Prop :=
  K.Keeps (fun w r => ∀ a, r = .ok a → Q w a) p w

variable {K} {M : W → α → Prop} {Q : W → β → Prop} {w : W}

namespace Serves

theorem pure (h : ∀ w', K.grows w w' → Q w' b) : Serves K Q (pure b) w := by
  rintro w' hw' _ ⟨⟩
  exact h w' hw'

theorem fail : Serves K Q (fail e) w := by
  rintro _ _ _ ⟨⟩

theorem bind (hp : Serves K M p w) (hf : ∀ w' a, K.grows w w' → M w' a → Serves K Q (f a) w') :
    Serves K Q (p >>= f) w := by
  refine Contract.Keeps.bind hp fun w' r hw' hr => ?_
  cases r with
  | ok a => exact hf w' a hw' (hr a rfl)
  | error e => exact fail

theorem mono (hp : Serves K Q p w) (h : ∀ w' b, K.grows w w' → Q w' b → Q' w' b) :
    Serves K Q' p w :=
  Contract.Keeps.mono hp fun w' _ hw' hr b hb => h w' b hw' (hr b hb)

theorem ite [Decidable c] (hp : Serves K Q p w) (hq : Serves K Q q w) :
    Serves K Q (if c then p else q) w := by
  split
  · exact hp
  · exact hq

theorem guard : Serves K (fun _ _ => c = true) (guard c e) w := by
  cases c with
  | false => exact fail
  | true => exact pure fun _ _ => rfl

theorem require : Serves K (fun _ b => o = some b) (require o e) w := by
  cases o with
  | none => exact fail
  | some b => exact pure fun _ _ => rfl

theorem ofExcept {x : Except IngressErr β} : Serves K (fun _ b => x = .ok b) (ofExcept x) w := by
  cases x with
  | error e => exact fail
  | ok b => exact pure fun _ _ => rfl

/-- A call that may be made, and what its answer tells. -/
theorem perform (h : ∀ w', K.grows w w' → K.may w' c) :
    Serves K (fun w v => K.Known w c (.ok v)) (perform c) w := by
  refine Contract.Keeps.mono (Contract.Keeps.perform h) ?_
  rintro w' _ _ hr b rfl
  exact hr

theorem attempt (hp : Serves K M p w) : Serves K (fun _ _ => True) (attempt p) w := by
  refine Contract.Keeps.bind hp fun w' r _ _ => ?_
  cases r with
  | ok a => exact pure fun _ _ => trivial
  | error e => exact pure fun _ _ => trivial

theorem context (hp : Serves K (fun _ _ => True) p w) :
    Serves K (fun _ _ => True) (context text p) w := by
  refine Contract.Keeps.bind hp fun w' r _ _ => ?_
  cases r with
  | ok a => exact pure fun _ _ => trivial
  | error e => exact fail

theorem forEach (hf : ∀ a w, Serves K (fun _ _ => True) (f a) w) (l : List α) :
    Serves K (fun _ _ => True) (forEach f l) w := by
  induction l generalizing w with
  | nil => exact pure fun _ _ => trivial
  | cons a l ih => exact (hf a w).bind fun _ _ _ _ => ih

end Serves

/-- The call opens an upload session. -/
def Cmd.opens : Cmd → Bool
  | .createUploadSession _ _ _ _ => true
  | _ => false

/-- The call reports what was found or done: a verified block, or a committed version. -/
def Cmd.reports : Cmd → Bool
  | .markBlockVerified _ => true
  | .publishFileCommitted _ => true
  | _ => false

/-- The call is made on no condition. -/
def Cmd.plain (c : Cmd) : Bool := !c.opens && !c.reports

/-- What `handleInitiate` knows when it opens a session: the request is valid, the quota that it was
told for the tenant is not exceeded, and the node is a file of the tenant or has been created. -/
structure Approval (K : Contract Cmd Answer W) (req : InitiateRequest) (w : W) (t n : Uuid) :
    Prop where
  valid : req.validate = .ok ()
  quota : ∃ q, K.Known w (.getTenantQuota t) (.ok q) ∧ q.exceededBy req.totalSize = false
  node : K.Known w (.validateFileNode t n) (.ok ()) ∨
    ∃ p, K.Known w (.createFileNode t p req.fileName) (.ok n)

/-- What `handleCommit` knows when it publishes a version: the request is valid, and the version was
committed for the tenant of the session. -/
structure Commitment (K : Contract Cmd Answer W) (req : CommitRequest) (w : W)
    (session : SessionRow) (v : Uuid) (number : Int) : Prop where
  valid : req.validate = .ok ()
  committed : ∃ sid sha blocks,
    K.Known w (.commitFile session.tenantId sid sha blocks) (.ok (v, number))

/-- Every requested block without a URL was among those that the registry was said to have. -/
def Spared (K : Contract Cmd Answer W) (req : InitiateRequest) (w : W) (urls : List UploadUrl) :
    Prop :=
  ∃ (hashes : List Hash) (existing : List (List Char)),
    K.Known w (.batchQueryExistingCas hashes) (.ok existing) ∧ ∀ c ∈ req.chunks,
      c.blockHash ∉ urls.map UploadUrl.blockHash → c.blockHash ∈ existing

/-- The block that a URL is for. -/
def UploadUrl.chunk (u : UploadUrl) : ChunkInfo := ⟨u.blockHash, u.sizeBytes⟩

/-- The request is valid, and the URLs are for its blocks whose text the registry, asked for all of
them, has not answered. -/
structure Selected (K : Contract Cmd Answer W) (req : InitiateRequest) (w : W)
    (urls : List UploadUrl) (hashes : List Hash) (existing : List (List Char)) : Prop where
  valid : req.validate = .ok ()
  decoded : (req.chunks.map ChunkInfo.blockHash).map decodeHash = hashes.map some
  known : K.Known w (.batchQueryExistingCas hashes) (.ok existing)
  urls : urls.map UploadUrl.chunk = req.chunks.filter fun c => c.blockHash ∉ existing

theorem Selected.spared {urls : List UploadUrl} (h : Selected K req w urls hashes existing) :
    Spared K req w urls := by
  refine ⟨hashes, existing, h.known, fun c hc hno => ?_⟩
  by_contra hnot
  have hmem : c ∈ urls.map UploadUrl.chunk := by
    rw [h.urls]
    exact List.mem_filter.2 ⟨hc, by simpa using hnot⟩
  obtain ⟨u, hu, rfl⟩ := List.mem_map.1 hmem
  exact hno (List.mem_map_of_mem hu)

section

variable (hfree : ∀ (w : W) (c : Cmd), c.plain = true → K.may w c)
include hfree

theorem fileNode_serves :
    Serves K (fun w n => K.Known w (.validateFileNode t n) (.ok ()) ∨
      ∃ p, K.Known w (.createFileNode t p req.fileName) (.ok n)) (fileNode srv t req) w := by
  unfold fileNode
  split
  · refine Serves.require.bind fun w₁ n _ _ => ?_
    refine (Serves.perform fun w' _ => hfree w' _ rfl).bind fun w₂ _ _ hknown => ?_
    exact Serves.pure fun w₃ hw₃ => .inl (hknown.grow hw₃)
  · refine Serves.bind (M := fun _ _ => True) ?_ fun w₁ p _ _ => ?_
    · unfold parseParent
      split
      · exact Serves.pure fun _ _ => trivial
      · exact Serves.require.bind fun _ _ _ _ => Serves.pure fun _ _ => trivial
    · refine (Serves.perform fun w' _ => hfree w' _ rfl).mono fun _ n _ hknown => ?_
      exact .inr ⟨p, hknown⟩

omit hfree in
theorem mustDecodeHashes_serves :
    Serves K (fun _ hashes => ts.map decodeHash = hashes.map some) (mustDecodeHashes ts) w := by
  induction ts generalizing w with
  | nil => exact Serves.pure fun _ _ => rfl
  | cons t ts ih =>
    refine Serves.require.bind fun _ h _ hh => ih.bind fun _ hs _ hhs => ?_
    exact Serves.pure fun _ _ => by rw [List.map_cons, List.map_cons, hh, hhs]

/-- The URLs are for the blocks that are not among the existing ones. -/
theorem mintUrls_serves :
    Serves K (fun _ urls => urls.map UploadUrl.chunk = cs.filter fun c => c.blockHash ∉ existing)
      (mintUrls srv t existing cs) w := by
  induction cs generalizing w with
  | nil => exact Serves.pure fun _ _ => rfl
  | cons c cs ih =>
    unfold mintUrls
    split
    · next hmem => exact ih.mono fun _ urls _ hrest => by simp [hrest, hmem]
    · next hnot =>
      refine Serves.bind (M := fun _ _ => True) ?_ fun w₁ url _ _ => ?_
      · refine Serves.context (Serves.ite ?_ ?_)
        · exact (Serves.perform fun w' _ => hfree w' _ rfl).mono fun _ _ _ _ => trivial
        · exact (Serves.perform fun w' _ => hfree w' _ rfl).mono fun _ _ _ _ => trivial
      · refine ih.bind fun w₂ urls _ hrest => Serves.pure fun _ _ => ?_
        simp [hrest, hnot, UploadUrl.chunk]

/-- **`handleInitiate` under a contract**: it opens a session only with approval, and gives URLs for
the blocks that the registry was not said to have. -/
theorem handleInitiate_serves (hopen : ∀ w t n, Approval K req w t n →
      K.may w (.createUploadSession t n req.totalSize req.chunks.length)) :
    Serves K (fun w resp => ∃ hashes existing, Selected K req w resp.uploadUrls hashes existing)
      (handleInitiate srv req) w := by
  refine Serves.guard.bind fun w₁ _ _ _ => Serves.ofExcept.bind fun w₂ _ _ hvalid => ?_
  refine Serves.require.bind fun w₃ t _ _ => ?_
  refine (Serves.perform fun w' _ => hfree w' _ rfl).bind fun w₄ q _ hquota => ?_
  refine Serves.guard.bind fun w₅ _ hw₅ hwithin => ?_
  refine (fileNode_serves hfree).bind fun w₆ n hw₆ hnode => ?_
  refine mustDecodeHashes_serves.bind fun w₇ hashes hw₇ hdecoded => ?_
  refine (Serves.perform fun w' _ => hfree w' _ rfl).bind fun w₈ existing hw₈ hexisting => ?_
  refine (mintUrls_serves hfree).bind fun w₉ urls hw₉ hurls => ?_
  refine (Serves.perform fun w' hw' => ?_).bind fun w₁₀ session hw₁₀ _ => ?_
  · -- the approval dates from earlier worlds
    have hw : K.grows w₆ w' := K.trans hw₇ (K.trans hw₈ (K.trans hw₉ hw'))
    refine hopen w' t n ⟨hvalid, ⟨q, hquota.grow (K.trans hw₅ (K.trans hw₆ hw)), ?_⟩, ?_⟩
    · simpa using hwithin
    · exact hnode.imp (fun h => h.grow hw) fun ⟨p, h⟩ => ⟨p, h.grow hw⟩
  · refine Serves.pure fun w₁₁ hw₁₁ => ⟨hashes, existing, hvalid, hdecoded, ?_, hurls⟩
    exact hexisting.grow (K.trans hw₉ (K.trans hw₁₀ hw₁₁))

variable (hmark : ∀ w blockHash etag h, K.Known w (.verifyBlock blockHash etag) (.ok ()) →
  decodeHash blockHash = some h → K.may w (.markBlockVerified h))
include hmark

/-- A block is marked only if the blob store has said that it is there. -/
theorem verifyAndMark_serves : Serves K (fun _ _ => True) (verifyAndMark b) w := by
  have hattempt : Serves K (fun w ok => ok = true →
      K.Known w (.verifyBlock b.blockHash b.etag) (.ok ()))
      (attempt (perform (.verifyBlock b.blockHash b.etag))) w := by
    refine Contract.Keeps.bind (Serves.perform fun w' _ => hfree w' _ rfl) fun w' r _ hr => ?_
    cases r with
    | ok a => exact Serves.pure fun w'' hw'' _ => (hr a rfl).grow hw''
    | error e => exact Serves.pure fun _ _ h => nomatch h
  refine hattempt.bind fun w₁ ok _ hok => ?_
  cases ok with
  | false => exact Serves.pure fun _ _ => trivial
  | true =>
    refine Serves.require.bind fun w₂ h hw₂ hdecode => ?_
    refine (Serves.perform fun w' hw' => ?_).attempt.bind fun _ _ _ _ =>
      Serves.pure fun _ _ => trivial
    exact hmark w' _ _ h ((hok rfl).grow (K.trans hw₂ hw')) hdecode

/-- **`handleCommit` under a contract**: it marks a block as verified only if the blob store has
said so, and publishes a version only if it was committed. -/
theorem handleCommit_serves
    (hpublish : ∀ w session v number, Commitment K req w session v number →
      K.may w (.publishFileCommitted (committedEvent req session v number))) :
    Serves K (fun _ _ => True) (handleCommit srv clock req) w := by
  have hblocks : ∀ {bs w}, Serves K (fun _ _ => True) (decodeBlocks bs) w := by
    intro bs
    induction bs with
    | nil => exact Serves.pure fun _ _ => trivial
    | cons b bs ih =>
      exact Serves.require.bind fun _ _ _ _ => ih.bind fun _ _ _ _ => Serves.pure fun _ _ => trivial
  have hverify : ∀ {w}, Serves K (fun _ _ => True) (verifyBlocks srv req.blocks) w := by
    intro w
    refine Serves.ite ?_ ?_
    · exact Serves.forEach (fun b w => verifyAndMark_serves hfree hmark) _
    · exact Serves.pure fun _ _ => trivial
  refine Serves.guard.bind fun _ _ _ _ => Serves.ofExcept.bind fun _ _ _ hvalid => ?_
  refine Serves.require.bind fun _ _ _ _ => Serves.require.bind fun _ _ _ _ => ?_
  refine (Serves.perform fun w' _ => hfree w' _ rfl).bind fun _ session _ _ => ?_
  refine Serves.guard.bind fun _ _ _ _ => Serves.guard.bind fun _ _ _ _ => ?_
  refine hblocks.bind fun _ blocks _ _ => ?_
  refine (Serves.perform fun w' _ => hfree w' _ rfl).bind fun _ version _ hversion => ?_
  refine (Serves.perform fun w' _ => hfree w' _ rfl).attempt.bind fun _ _ hw₁ _ => ?_
  refine hverify.bind fun _ _ hw₂ _ => Serves.bind (M := fun _ _ => True) ?_ fun _ _ _ _ => ?_
  · refine Serves.ite ?_ ?_
    · refine (Serves.perform fun w' hw' => ?_).attempt
      have hknown := hversion.grow (K.trans hw₁ (K.trans hw₂ hw'))
      exact hpublish w' session _ _ ⟨hvalid, _, _, blocks, hknown⟩
    · exact Serves.pure fun _ _ => trivial
  · exact Serves.pure fun _ _ => trivial

end

/-- What a response to a request promises. -/
def Request.Met (K : Contract Cmd Answer W) (w : W) : Request → Response → Prop
  | .initiate req, .initiated resp => Spared K req w resp.uploadUrls
  | _, _ => True

theorem handle_serves (hfree : ∀ (w : W) (c : Cmd), c.plain = true → K.may w c)
    (hopen : ∀ req w t n, Approval K req w t n →
      K.may w (.createUploadSession t n req.totalSize req.chunks.length))
    (hmark : ∀ w blockHash etag h, K.Known w (.verifyBlock blockHash etag) (.ok ()) →
      decodeHash blockHash = some h → K.may w (.markBlockVerified h))
    (hpublish : ∀ req w session v number, Commitment K req w session v number →
      K.may w (.publishFileCommitted (committedEvent req session v number))) (r : Request) :
    Serves K (fun w resp => r.Met K w resp) (handle srv r) w := by
  cases r with
  | initiate req =>
    refine (handleInitiate_serves hfree (hopen req)).bind fun w₁ resp _ hselected => ?_
    refine Serves.pure fun w₂ hw₂ => ?_
    obtain ⟨hashes, existing, hsel⟩ := hselected
    exact Selected.spared { hsel with known := hsel.known.grow hw₂ }
  | commit clock req =>
    exact (handleCommit_serves hfree hmark (hpublish req)).bind fun _ _ _ _ =>
      Serves.pure fun _ _ => trivial

/-- The requests keep the contract from where they are. -/
def Obeys (K : Contract Cmd Answer W) (w : W) (s : State) : Prop :=
  ∀ q ∈ s.processes, K.Keeps (fun w r => ∀ resp, r = .ok resp → q.request.Met K w resp)
    q.stage.prog w

/-- What a finished request promises holds. -/
theorem Obeys.met (hs : Obeys K w s) (hq : q ∈ s.processes)
    (hresp : q.stage.response = some (.ok resp)) : q.request.Met K w resp := by
  have hkeeps := hs q hq
  match hstage : q.stage, hresp with
  | .running (.ret _), rfl =>
    rw [hstage] at hkeeps
    exact hkeeps w (K.refl w) resp rfl

theorem obeys_init (d : Db) : Obeys K w (.init d) := fun _ hq => nomatch hq

/-- **The step of the induction over runs**: in a system that grows as the contract says and gives
only answers that the contract admits, the requests go on keeping it. -/
theorem Obeys.does (hs : Obeys K w s) (hd : Does srv s a s') (hgrow : K.grows w w')
    (hnew : ∀ r, Serves K (fun w resp => r.Met K w resp) (handle srv r) w')
    (htold : ∀ {q : Process} {c : Cmd} {x : Answer c}, q ∈ s.processes →
      Answers srv s q.stage c x → K.told w c x) : Obeys K w' s' := by
  have hold : Obeys K w' s := fun q hq => (hs q hq).grow hgrow
  have hput : ∀ {i : Nat} {q' : Process}, K.Keeps (fun w r => ∀ resp, r = .ok resp →
      q'.request.Met K w resp) q'.stage.prog w' → ∀ q ∈ s.processes.set i q',
      K.Keeps (fun w r => ∀ resp, r = .ok resp → q.request.Met K w resp) q.stage.prog w' := by
    intro i q' hq' q hq
    rcases List.mem_or_eq_of_mem_set hq with hq | rfl
    · exact hold q hq
    · exact hq'
  cases hd with
  | receive r =>
    intro q hq
    rcases List.mem_append.1 hq with hq | hq
    · exact hold q hq
    · obtain rfl := List.mem_singleton.1 hq
      exact hnew r
  | start hi hcall hpool =>
    have hq := hold _ (List.mem_of_getElem? hi)
    refine hput ?_
    exact hq
  | @answer i o q c next x hi hprog hx =>
    have hq := hs q (List.mem_of_getElem? hi)
    rw [hprog] at hq
    exact hput (((hq w (K.refl w)).2 x (htold (List.mem_of_getElem? hi) hx)).grow hgrow)
  | txn _ _ => exact hold
  | upload => exact hold

end Contracts

end Aegis.Ingress.Handlers
