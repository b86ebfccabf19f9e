import Mathlib.Data.List.DropRight
import Aegis.Lib.Effect
import Aegis.Namespace.Procedures
import Aegis.Ingress.Writes

/-!
# The ingest handlers

`handleInitiate` (internal/ingress/initiate.go) and `handleCommit` (internal/ingress/commit.go) with
the validation of their requests (models.go), as programs over the calls of `PgStore` (store.go), of
the blob store (internal/objectstorage/minio.go) and of the event bus. Any number of requests are
served together: a call that writes the database is a transaction in the pool, in any interleaving
of its statements with those of the others, and clients may or may not PUT the blocks they have been
given URLs for. Every call can also fail, with any error.

`uuid.Parse`, the ETags of the blob store, generated identifiers, clock readings and the texts of
the minted URLs are parameters.
-/

namespace Aegis.Db

/-- A new row: an INSERT never replaces one. -/
def insertSession (s : Uuid) (r : SessionRow) (d : Db) : Db :=
  { d with sessions := d.sessions.insertNew s r }

/-- `SET verified = TRUE`. -/
def verifyBlock (h : Hash) (d : Db) : Db :=
  { d with blocks := Table.modify h (fun r => { r with verified := true }) d.blocks }

/-- The query of `BatchQueryExistingCAS`: the hashes that have a row, as lower-case text. -/
def existingCas (hashes : List Hash) (d : Db) : List (List Char) :=
  (d.blocks.keysWhere fun h _ => hashes.contains h).map fun h => hexText 64 h.toNat

end Aegis.Db

namespace Aegis.Ingress.Handlers

open Db Stmt Txn Txn.Prog

/-! ## Errors -/

/-- What the handlers return instead of a response: the sentinels of models.go, some with a detail,
and errors that are none of them. -/
inductive IngressErr
  | badRequest (detail : String)
  | tenantNotFound
  | quotaExceeded
  | sessionNotFound
  | sessionExpired
  | sessionCompleted
  | sessionTenantMismatch
  | nodeNotFound
  | nodeNotFile
  | dbUnavailable (detail : String)
  | serialization
  | other (message : String)
  deriving DecidableEq

def IngressErr.message : IngressErr → String
  | badRequest detail => "ingress: bad request: " ++ detail
  | tenantNotFound => "ingress: tenant not found"
  | quotaExceeded => "ingress: storage quota exceeded"
  | sessionNotFound => "ingress: upload session not found"
  | sessionExpired => "ingress: upload session expired"
  | sessionCompleted => "ingress: upload session already completed"
  | sessionTenantMismatch => "ingress: session tenant mismatch"
  | nodeNotFound => "ingress: file node not found"
  | nodeNotFile => "ingress: node is not a FILE"
  | dbUnavailable detail => "ingress: database unavailable: " ++ detail
  | serialization => "ingress: serialization failure"
  | other message => message

/-! ## Requests -/

/-- `len` of a Go string: its bytes in UTF-8. -/
def byteLen (t : List Char) : Nat := (t.map Char.utf8Size).sum

/-- `hex.DecodeString` of 64 characters. -/
def decodeHash (t : List Char) : Option Hash :=
  (t.mapM hexValue).map fun ds => BitVec.ofNat 256 (ds.foldl (fun n d => 16 * n + d) 0)

/-- `ChunkInfo`. -/
structure ChunkInfo where
  blockHash : List Char
  sizeBytes : Int
  deriving DecidableEq

structure InitiateRequest where
  tenantId : List Char
  fileName : List Char
  parentId : Option (List Char)
  nodeId : Option (List Char)
  totalSize : Int
  chunks : List ChunkInfo
  deriving DecidableEq

/-- `BlockMeta` as the client sends it. -/
structure WireBlock where
  blockHash : List Char
  chunkIndex : Int
  offset : Int
  sizeBytes : Int
  etag : List Char
  deriving DecidableEq

structure CommitRequest where
  sessionId : List Char
  contentSha256 : List Char
  mimeType : List Char
  blocks : List WireBlock
  deriving DecidableEq

/-- The checks that both requests make of their `i`-th block. -/
def validateBlock (label : String) (i : Nat) (blockHash : List Char) (sizeBytes : Int) :
    Except IngressErr Unit :=
  let entry := label ++ "[" ++ toString i ++ "]"
  if byteLen blockHash ≠ 64 then
    .error (.badRequest (entry ++ ".block_hash must be 64 hex chars"))
  else if (decodeHash blockHash).isNone then
    .error (.badRequest (entry ++ ".block_hash must be valid hex"))
  else if sizeBytes ≤ 0 then
    .error (.badRequest (entry ++ ".size_bytes must be positive"))
  else .ok ()

/-- The loop over the blocks, from index `i` on. -/
def validateBlocks (label : String) : Nat → List (List Char × Int) → Except IngressErr Unit
  | _, [] => .ok ()
  | i, (blockHash, sizeBytes) :: l => do
    validateBlock label i blockHash sizeBytes
    validateBlocks label (i + 1) l

def InitiateRequest.validate (r : InitiateRequest) : Except IngressErr Unit :=
  if r.tenantId = [] then .error (.badRequest "tenant_id required")
  else if r.fileName = [] then .error (.badRequest "file_name required")
  else if r.totalSize ≤ 0 then .error (.badRequest "total_size_bytes must be positive")
  else if r.chunks = [] then .error (.badRequest "chunks array must not be empty")
  else validateBlocks "chunk" 0 (r.chunks.map fun c => (c.blockHash, c.sizeBytes))

def CommitRequest.validate (r : CommitRequest) : Except IngressErr Unit :=
  if r.sessionId = [] then .error (.badRequest "session_id required")
  else if byteLen r.contentSha256 ≠ 64 then
    .error (.badRequest "content_sha256 must be 64 hex chars")
  else if (decodeHash r.contentSha256).isNone then
    .error (.badRequest "content_sha256 must be valid hex")
  else validateBlocks "block" 0 (r.blocks.map fun b => (b.blockHash, b.sizeBytes))

/-- The numbers of the request are in the range of `int64`, or it is not decoded. -/
def InitiateRequest.fitsInt64 (r : InitiateRequest) : Bool :=
  fitsBigint r.totalSize && r.chunks.all fun c => fitsBigint c.sizeBytes

def CommitRequest.fitsInt64 (r : CommitRequest) : Bool :=
  r.blocks.all fun b => fitsBigint b.chunkIndex && fitsBigint b.offset && fitsBigint b.sizeBytes

/-! ## Calls -/

/-- `TenantQuota`. -/
structure TenantQuota where
  storageQuotaBytes : Int
  usedBytes : Int

/-- The value of an `int64` sum. -/
def wrapInt64 (n : Int) : Int := (n + 2 ^ 63) % 2 ^ 64 - 2 ^ 63

/-- The quota check of `handleInitiate`, in `int64` arithmetic. -/
def TenantQuota.exceededBy (q : TenantQuota) (totalSize : Int) : Bool :=
  0 < q.storageQuotaBytes && q.storageQuotaBytes < wrapInt64 (q.usedBytes + totalSize)

/-- `ChunkDetail`. -/
structure ChunkDetail where
  index : Int
  blockHash : List Char
  sizeBytes : Int
  offsetBytes : Int

/-- `FileCommittedEvent`, without its generated id and time. -/
structure FileCommittedEvent where
  eventType : String
  tenantId : Uuid
  nodeId : Option Uuid
  versionId : Uuid
  versionNumber : Int
  totalSize : Int
  mimeType : List Char
  contentSha256 : List Char
  chunks : List ChunkDetail
  blockHashes : List (List Char)

/-- The calls of the handlers. -/
inductive Cmd
  | getTenantQuota (tenantId : Uuid)
  | validateFileNode (tenantId nodeId : Uuid)
  | createFileNode (tenantId : Uuid) (parentId : Option Uuid) (name : List Char)
  | batchQueryExistingCas (hashes : List Hash)
  | generateUploadUrl (tenantId : Uuid) (blockHash : List Char) (sizeBytes : Int)
  | generatePreSignedUrl (tenantId : Uuid) (blockHash endpointId : List Char)
  | createUploadSession (tenantId nodeId : Uuid) (totalSize chunks : Int)
  | getSession (sessionId : Uuid)
  | commitFile (tenantId sessionId : Uuid) (contentSha256 : Hash) (blocks : List BlockMeta)
  | bumpCacheGeneration (tenantId : Uuid)
  | verifyBlock (blockHash etag : List Char)
  | markBlockVerified (h : Hash)
  | publishFileCommitted (e : FileCommittedEvent)

/-- What a call returns if it succeeds. -/
def Value : Cmd → Type
  | .getTenantQuota _ => TenantQuota
  | .validateFileNode _ _ => Unit
  | .createFileNode _ _ _ => Uuid
  | .batchQueryExistingCas _ => List (List Char)
  | .generateUploadUrl _ _ _ => List Char
  | .generatePreSignedUrl _ _ _ => List Char
  | .createUploadSession _ _ _ _ => Uuid × Time
  | .getSession _ => SessionRow
  | .commitFile _ _ _ _ => Uuid × Int
  | .bumpCacheGeneration _ => Unit
  | .verifyBlock _ _ => Unit
  | .markBlockVerified _ => Unit
  | .publishFileCommitted _ => Unit

abbrev Answer (c : Cmd) : Type := Except IngressErr (Value c)

/-! ## Handlers -/

/-- A piece of a handler, which can end with an error. -/
def Handler (α : Type) : Type := Proc Cmd Answer (Except IngressErr α)

namespace Handler

variable {α β : Type}

/-- End with an error. -/
def fail (e : IngressErr) : Handler α := Proc.ret (.error e)

/-- Sequencing: what follows an error is not done. -/
protected def bind (p : Handler α) (f : α → Handler β) : Handler β :=
  Proc.bind p fun
    | .ok a => f a
    | .error e => fail e

instance : Monad Handler where
  pure a := Proc.ret (.ok a)
  bind := Handler.bind

/-- Go on only if `c` holds. -/
def guard (c : Bool) (e : IngressErr) : Handler Unit := if c then pure () else fail e

/-- Go on with a value that may be missing. -/
def require (o : Option α) (e : IngressErr) : Handler α :=
  match o with
  | some a => pure a
  | none => fail e

def ofExcept : Except IngressErr α → Handler α
  | .ok a => pure a
  | .error e => fail e

/-- One call. -/
def perform (c : Cmd) : Handler (Value c) := Proc.perform c

/-- Whether the piece succeeds; its error is dropped. -/
def attempt (p : Handler α) : Handler Bool :=
  Proc.bind p fun
    | .ok _ => Proc.ret (.ok true)
    | .error _ => Proc.ret (.ok false)

/-- An error of the piece is wrapped with a text. -/
def context (text : String) (p : Handler α) : Handler α :=
  Proc.bind p fun
    | .ok a => Proc.ret (.ok a)
    | .error e => fail (.other (text ++ e.message))

/-- Run `f` on every element in turn. -/
def forEach (f : α → Handler Unit) : List α → Handler Unit
  | [] => pure ()
  | a :: l => do
    f a
    forEach f l

end Handler

open Handler

/-- `IngressServer`: which of its optional parts are there, and what it takes from others:
`uuid.Parse`, and the ETag that the blob store gives to bytes. -/
structure Server where
  blob : Bool
  events : Bool
  endpointId : List Char
  parseUuid : List Char → Option Uuid
  etagOf : List UInt8 → List Char

/-- `UploadURL`. -/
structure UploadUrl where
  blockHash : List Char
  url : List Char
  sizeBytes : Int
  deriving DecidableEq

/-- `InitiateResponse`, with identifiers and the time not yet rendered as text. -/
structure InitiateResponse where
  sessionId : Uuid
  nodeId : Uuid
  expiresAt : Time
  uploadUrls : List UploadUrl
  deriving DecidableEq

structure CommitResponse where
  versionId : Uuid
  versionNumber : Int
  deriving DecidableEq

/-- What `encoding/json` says of a number that `int64` does not hold, less the number and the field,
which it names as well. -/
def notInt64 : IngressErr := .badRequest "json: cannot unmarshal number into Go value of type int64"

/-- What the middleware answers when a handler panics. -/
def panicked : IngressErr := .other "internal server error"

/-- The parent of a new node, which may be left out. -/
def parseParent (srv : Server) : Option (List Char) → Handler (Option Uuid)
  | none => return none
  | some t => do
    let parentId ← require (srv.parseUuid t) (.badRequest "invalid parent_id")
    return some parentId

/-- Step 2 of `handleInitiate`: the node that is asked for, or a new one. -/
def fileNode (srv : Server) (tenantId : Uuid) (req : InitiateRequest) : Handler Uuid :=
  match req.nodeId with
  | some t => do
    let nodeId ← require (srv.parseUuid t) (.badRequest "invalid node_id")
    perform (.validateFileNode tenantId nodeId)
    return nodeId
  | none => do
    let parentId ← parseParent srv req.parentId
    perform (.createFileNode tenantId parentId req.fileName)

/-- `MustDecodeHash` on every hash; it panics on text that is not hexadecimal. -/
def mustDecodeHashes : List (List Char) → Handler (List Hash)
  | [] => return []
  | t :: ts => do
    let h ← require (decodeHash t) panicked
    let hs ← mustDecodeHashes ts
    return h :: hs

/-- The URL for one missing block. -/
def mintUrl (srv : Server) (tenantId : Uuid) (c : ChunkInfo) : Handler (List Char) :=
  context "mint pre-signed URL: " <|
    if srv.blob then perform (.generateUploadUrl tenantId c.blockHash c.sizeBytes)
    else perform (.generatePreSignedUrl tenantId c.blockHash srv.endpointId)

/-- Step 4 of `handleInitiate`: URLs for the blocks whose text is not among the existing ones. -/
def mintUrls (srv : Server) (tenantId : Uuid) (existing : List (List Char)) :
    List ChunkInfo → Handler (List UploadUrl)
  | [] => return []
  | c :: cs =>
    if c.blockHash ∈ existing then mintUrls srv tenantId existing cs
    else do
      let url ← mintUrl srv tenantId c
      let urls ← mintUrls srv tenantId existing cs
      return ⟨c.blockHash, url, c.sizeBytes⟩ :: urls

def handleInitiate (srv : Server) (req : InitiateRequest) : Handler InitiateResponse := do
  guard req.fitsInt64 notInt64
  ofExcept req.validate
  let tenantId ← require (srv.parseUuid req.tenantId) (.badRequest "invalid tenant_id")
  let quota ← perform (.getTenantQuota tenantId)
  guard (!quota.exceededBy req.totalSize) .quotaExceeded
  let nodeId ← fileNode srv tenantId req
  let hashes ← mustDecodeHashes (req.chunks.map ChunkInfo.blockHash)
  let existing ← perform (.batchQueryExistingCas hashes)
  let uploadUrls ← mintUrls srv tenantId existing req.chunks
  let session ← perform (.createUploadSession tenantId nodeId req.totalSize req.chunks.length)
  return ⟨session.1, nodeId, session.2, uploadUrls⟩

/-- The blocks of a commit with their hashes decoded. -/
def decodeBlocks : List WireBlock → Handler (List BlockMeta)
  | [] => return []
  | b :: bs => do
    let h ← require (decodeHash b.blockHash) panicked
    let rest ← decodeBlocks bs
    return ⟨h, b.chunkIndex, b.offset, b.sizeBytes⟩ :: rest

/-- The verification of one block after the commit, at best. -/
def verifyAndMark (b : WireBlock) : Handler Unit := do
  let ok ← attempt (perform (.verifyBlock b.blockHash b.etag))
  if ok then
    let h ← require (decodeHash b.blockHash) panicked
    let _ ← attempt (perform (.markBlockVerified h))

/-- The verification of all blocks, if there is a blob store. -/
def verifyBlocks (srv : Server) (blocks : List WireBlock) : Handler Unit :=
  if srv.blob then forEach verifyAndMark blocks else pure ()

/-- The event of a commit. -/
def committedEvent (req : CommitRequest) (session : SessionRow) (versionId : Uuid)
    (versionNumber : Int) : FileCommittedEvent where
  eventType := "VERSION_COMMITTED"
  tenantId := session.tenantId
  nodeId := session.nodeId
  versionId := versionId
  versionNumber := versionNumber
  totalSize := session.totalSize
  mimeType := if req.mimeType = [] then "application/octet-stream".toList else req.mimeType
  contentSha256 := req.contentSha256
  chunks := req.blocks.map fun b => ⟨b.chunkIndex, b.blockHash, b.sizeBytes, b.offset⟩
  blockHashes := req.blocks.map WireBlock.blockHash

/-- The event is published, at best, if there is a bus. -/
def publish (srv : Server) (e : FileCommittedEvent) : Handler Bool :=
  if srv.events then attempt (perform (.publishFileCommitted e)) else return true

/-- `handleCommit`, with the reading of the clock for its check of the session. -/
def handleCommit (srv : Server) (clock : Time) (req : CommitRequest) : Handler CommitResponse := do
  guard req.fitsInt64 notInt64
  ofExcept req.validate
  let sessionId ← require (srv.parseUuid req.sessionId) (.badRequest "invalid session_id")
  let contentSha256 ← require (decodeHash req.contentSha256) (.badRequest "invalid content_sha256")
  let session ← perform (.getSession sessionId)
  guard (session.status != .completed) .sessionCompleted
  guard (!decide (session.expiresAt < clock)) .sessionExpired
  let blocks ← decodeBlocks req.blocks
  let version ← perform (.commitFile session.tenantId sessionId contentSha256 blocks)
  let _ ← attempt (perform (.bumpCacheGeneration session.tenantId))
  verifyBlocks srv req.blocks
  let _ ← publish srv (committedEvent req session version.1 version.2)
  return ⟨version.1, version.2⟩

/-! ## Transactions -/

/-- A session to be inserted, with the generated id and the default of `expires_at`. -/
structure NewSession where
  sessionId : Uuid
  tenantId : Uuid
  nodeId : Uuid
  totalSize : Int
  chunks : Int
  expiresAt : Time

def NewSession.row (a : NewSession) : SessionRow where
  tenantId := a.tenantId
  nodeId := some a.nodeId
  status := .initiated
  totalSize := a.totalSize
  expectedChunks := a.chunks
  chunksReceived := 0
  expiresAt := a.expiresAt

/-- The INSERT of `CreateUploadSession`. -/
def createUploadSession (a : NewSession) : Stmt Unit := do
  check (fitsBigint a.totalSize && fitsInteger a.chunks) .numericValueOutOfRange
  check (0 ≤ a.totalSize) (.checkViolation .uploadSessionsTotalSizeCheck)
  check (0 < a.chunks) (.checkViolation .uploadSessionsExpectedChunksCheck)
  let locks := [.row (.session a.sessionId) .update]
  let v ← stmt (fun _ => locks) (fun _ => locks) (fun _ => insertSession a.sessionId a.row)
  check (!hasSession a.sessionId v) (.uniqueViolation .uploadSessionsPkey)
  references (.tenant a.tenantId) (hasTenant a.tenantId) .uploadSessionsTenantIdFkey
  references (.node a.nodeId) (hasNode a.nodeId) .uploadSessionsNodeIdFkey

/-- The UPDATE of `MarkBlockVerified`. -/
def markBlockVerified (h : Hash) : Stmt Unit := do
  let v ← read
  if hasBlock h v then
    let _ ← rewriteRow (.block h) .noKeyUpdate (hasBlock h) (hasBlock h) (Db.verifyBlock h)

/-- The calls that are transactions. -/
inductive Call
  | createFileNode (a : Namespace.NewNode)
  | createUploadSession (a : NewSession)
  | commitFile (a : CommitFile)
  | markBlockVerified (h : Hash)

inductive Res
  | done
  | committed (versionId : Uuid) (number : Int)

/-- The marks that the INSERT of a node leaves for moves are dropped: there are no moves here. -/
def Call.body : Call → Stmt Res
  | createFileNode a => do
    (Namespace.insertNode a).unmarked
    return .done
  | createUploadSession a => do
    Handlers.createUploadSession a
    return .done
  | commitFile a => do
    let (versionId, number) ← Ingress.commitFile a
    return .committed versionId number
  | markBlockVerified h => do
    Handlers.markBlockVerified h
    return .done

/-- What others supply for a call: a generated id, readings of the clocks of the process and of the
database, the default of `expires_at`, and the text of a URL. -/
structure Inputs where
  id : Uuid
  clock : Time
  now : Time
  expiresAt : Time
  url : List Char

/-- The transaction of a call, if it is one. -/
def Cmd.call (x : Inputs) : Cmd → Option Call
  | .createFileNode t p name => some (.createFileNode ⟨x.id, t, p, name, .file⟩)
  | .createUploadSession t n size chunks =>
    some (.createUploadSession ⟨x.id, t, n, size, chunks, x.expiresAt⟩)
  | .commitFile t s sha blocks => some (.commitFile ⟨t, s, sha, blocks, x.id, x.clock, x.now⟩)
  | .markBlockVerified h => some (.markBlockVerified h)
  | _ => none

/-- What a committed transaction answers. -/
def Cmd.accept : (c : Cmd) → Call → Res → Answer c
  | .createFileNode _ _ _, .createFileNode a, _ => .ok a.nodeId
  | .createUploadSession _ _ _ _, .createUploadSession a, _ => .ok (a.sessionId, a.expiresAt)
  | .commitFile _ _ _ _, _, .committed versionId number => .ok (versionId, number)
  | .markBlockVerified _, _, _ => .ok ()
  | _, _, _ => .error panicked

/-- The error of `CommitFile` for what its transaction raised. -/
def commitErr : Err → IngressErr
  | .sessionNotFound => .sessionNotFound
  | .sessionCompleted => .sessionCompleted
  | .sessionExpired => .sessionExpired
  | .sessionTenantMismatch => .sessionTenantMismatch
  | .wrongBlockCount expected got =>
    .badRequest ("expected " ++ toString expected ++ " blocks, got " ++ toString got)
  | .sessionHasNoNode => .badRequest "session has no node_id"
  | e => .other e.message

/-- The error of a call whose transaction has raised one. -/
def Cmd.refuse : Cmd → Err → IngressErr
  | .createFileNode _ _ _, e => .other ("create file node: " ++ e.message)
  | .createUploadSession _ _ _ _, e => .other ("create session: " ++ e.message)
  | .commitFile _ _ _ _, e => commitErr e
  | _, e => .other e.message

/-- What the transaction of a call answers once it is over. -/
def Cmd.result (c : Cmd) (t : Tx Db DbLock Err Call Res) : Option (Answer c) :=
  match t.phase with
  | .running _ => none
  | .committed r => some (c.accept t.call r)
  | .failed e => some (.error (c.refuse e))
  | .aborted => some (.error (.other "timeout: context already done"))

/-! ## The system -/

/-- The requests; a commit comes with the clock reading of its handler. -/
inductive Request
  | initiate (r : InitiateRequest)
  | commit (clock : Time) (r : CommitRequest)
  deriving DecidableEq

inductive Response
  | initiated (r : InitiateResponse)
  | committed (r : CommitResponse)
  deriving DecidableEq

def handle (srv : Server) : Request → Handler Response
  | .initiate r => do
    let resp ← handleInitiate srv r
    return .initiated resp
  | .commit clock r => do
    let resp ← handleCommit srv clock r
    return .committed resp

/-- How far a request is: its handler runs or has returned, or it waits for a transaction. -/
inductive Stage
  | running (p : Proc Cmd Answer (Except IngressErr Response))
  | waiting (tx : Nat) (c : Cmd) (next : Answer c → Proc Cmd Answer (Except IngressErr Response))

/-- What the handler has still to do. -/
def Stage.prog : Stage → Proc Cmd Answer (Except IngressErr Response)
  | .running p => p
  | .waiting _ c next => .call c next

structure Process where
  request : Request
  stage : Stage

/-- The transactions with the database, the objects of the blob store under the hash text of their
key, and the requests. -/
structure State where
  pool : Sys Db DbLock Err Call Res
  objects : Table (List Char) (List UInt8)
  processes : List Process

/-- The outcome of a call: it goes through, or fails with any error. -/
inductive Outcome
  | ok (x : Inputs)
  | error (e : IngressErr)

/-- What can happen: a request comes in, the handler of one makes a call or gets its answer, a
transaction takes a step, commits or is aborted, and a client PUTs a block. -/
inductive Act
  | receive (r : Request)
  | advance (i : Nat) (o : Outcome)
  | exec (i : Nat)
  | commit (i : Nat)
  | abort (i : Nat)
  | upload (blockHash : List Char) (bytes : List UInt8)

/-- What the handler has returned, if it has. -/
def Stage.response : Stage → Option (Except IngressErr Response)
  | .running (.ret r) => some r
  | _ => none

/-- The URLs that a request has been given. -/
def Process.urls (q : Process) : List UploadUrl :=
  match q.stage.response with
  | some (.ok (.initiated r)) => r.uploadUrls
  | _ => []

/-- `strings.Trim` of double quotes. -/
def trimQuotes (t : List Char) : List Char :=
  (t.dropWhile (· == Char.ofNat 34)).rdropWhile (· == Char.ofNat 34)

namespace State

/-- No request yet and no object. -/
def init (d : Db) : State := ⟨Sys.init d, ∅, []⟩

/-- The committed database. -/
def db (s : State) : Db := s.pool.world.db

def put (s : State) (i : Nat) (q : Process) : State := { s with processes := s.processes.set i q }

/-- A step of the pool. -/
def txn (s : State) (a : Action Call) : Option State :=
  (s.pool.step Call.body a).map fun pool => { s with pool := pool }

/-- The check of `VerifyBlock`. -/
def verify (srv : Server) (s : State) (blockHash expected : List Char) : Except IngressErr Unit :=
  match s.objects.lookup blockHash with
  | none => .error (.other ("objectstorage: block not found: " ++ String.ofList blockHash))
  | some bytes =>
    let stored := trimQuotes (srv.etagOf bytes)
    if stored = trimQuotes expected then .ok ()
    else .error (.other ("objectstorage: ETag mismatch: stored=" ++ String.ofList stored ++
      " expected=" ++ String.ofList (trimQuotes expected)))

/-- The answer to a call that is not a transaction. -/
def reply (srv : Server) (s : State) (x : Inputs) : (c : Cmd) → Answer c
  | .getTenantQuota t =>
    match s.db.tenants.lookup t with
    | some r => .ok (⟨r.storageQuotaBytes, r.usedBytes⟩ : TenantQuota)
    | none => .error .tenantNotFound
  | .validateFileNode t n =>
    match s.db.nodeOf t n with
    | some r => if r.type = .file then .ok () else .error .nodeNotFile
    | none => .error .nodeNotFound
  | .batchQueryExistingCas hashes => .ok (s.db.existingCas hashes)
  | .generateUploadUrl _ _ _ => .ok x.url
  | .generatePreSignedUrl _ _ _ => .ok x.url
  | .getSession sid =>
    match s.db.sessions.lookup sid with
    | some r => .ok r
    | none => .error .sessionNotFound
  | .bumpCacheGeneration _ => .ok ()
  | .verifyBlock blockHash expected => s.verify srv blockHash expected
  | .publishFileCommitted _ => .ok ()
  | _ => .error panicked

/-- A handler makes its next call, or gets the answer it waits for. -/
def advance (srv : Server) (s : State) (i : Nat) (o : Outcome) : Option State :=
  match s.processes[i]? with
  | some ⟨req, .running (.call c next)⟩ =>
    match o with
    | .error e => some (s.put i ⟨req, .running (next (.error e))⟩)
    | .ok x =>
      match c.call x with
      | some call =>
        (s.txn (.start call)).map fun s' =>
          s'.put i ⟨req, .waiting s.pool.txns.length c next⟩
      | none => some (s.put i ⟨req, .running (next (s.reply srv x c))⟩)
  | some ⟨req, .waiting tx c next⟩ =>
    match o with
    | .error e => some (s.put i ⟨req, .running (next (.error e))⟩)
    | .ok _ =>
      ((s.pool.txns[tx]?).bind c.result).map fun a => s.put i ⟨req, .running (next a)⟩
  | _ => none

/-- One action, if it is possible. A block is put with a URL that was given for it. -/
def step (srv : Server) (s : State) : Act → Option State
  | .receive r => some { s with processes := s.processes ++ [⟨r, .running (handle srv r)⟩] }
  | .advance i o => s.advance srv i o
  | .exec i => s.txn (.exec i)
  | .commit i => s.txn (.commit i)
  | .abort i => s.txn (.abort i)
  | .upload blockHash bytes =>
    if s.processes.any fun q => q.urls.any fun u => u.blockHash == blockHash then
      some { s with objects := s.objects.insert blockHash bytes }
    else none

/-- A whole run. -/
def run (srv : Server) : State → List Act → Option State := Run.run (step srv)

end State

end Aegis.Ingress.Handlers
