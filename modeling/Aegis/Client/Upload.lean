import Aegis.Client.Parallel
import Aegis.FastCdc.GoFaults
import Aegis.Ingress.Serving

/-!
# The Go client (`aegis/client.go`)

`UploadFile` reads its file three times: to chunk it, to upload chunks and to hash it as a whole. In
between it sends the initiate request, looks up which chunks have an upload URL in the answer, and
uploads those. The commit lists all chunks. The operating system and the server may fail any call; a
file that does not change is one that both readers deliver.

The requests are those of the server's handlers, to whose checks they are put. That the blocks tile
the file comes from the chunker (`chunkAll_covers`), which may have met errors on its way, and that
the bytes add up from the counter of the uploader (`uploadChunksParallel_eq`).
-/

namespace Aegis.Ingress.Handlers

/-- Thirty-two bytes in hexadecimal are a hash. -/
theorem decodeHash_encodeToString (bytes : Vector UInt8 32) :
    byteLen (FastCdc.Go.encodeToString bytes.toList) = 64 ∧
      (decodeHash (FastCdc.Go.encodeToString bytes.toList)).isSome := by
  have hdigits : ∀ c ∈ FastCdc.Go.encodeToString bytes.toList, isLowerHexDigit c = true :=
    fun c hc => FastCdc.Go.isLowerHexDigit_of_mem_encodeToString hc
  constructor
  · rw [byteLen, sum_utf8Size_of_isLowerHexDigit hdigits, FastCdc.Go.encodeToString,
      List.length_flatMap]
    simp
  · obtain ⟨digits, hd⟩ := exists_mapM_hexValue hdigits
    rw [decodeHash, hd]
    rfl

end Aegis.Ingress.Handlers

namespace Aegis.Client

open FastCdc (slice)
open FastCdc.Go (Chunk Reader Delivers EndsOnce Covers chunkAt chunkAll newWithConfig defaultConfig
  gearTable)
open Ingress.Handlers (InitiateRequest CommitRequest ChunkInfo WireBlock UploadUrl IngressErr
  validateBlock validateBlocks byteLen decodeHash)

/-! ## Calls and their answers -/

/-- The fields of `UploadOptions` that the requests are made from. -/
structure UploadOptions where
  filePath : List Char
  parentID : Option (List Char)
  nodeID : Option (List Char)
  mimeType : List Char

structure InitiateResponse where
  sessionID : List Char
  nodeID : List Char
  uploadURLs : List UploadUrl

structure CommitResponse where
  versionID : List Char
  versionNumber : Int

structure UploadResult where
  versionID : List Char
  versionNumber : Int
  nodeID : List Char
  sessionID : List Char
  bytesUploaded : Int
  deduplicated : Int
  deriving DecidableEq

/-- What comes of an HTTP request: it cannot be made, it fails, or it is answered with a status, the
error text of the body if there is one, and the decoded body. -/
inductive HttpAnswer (α : Type)
  | notCreated (err : String)
  | failed (err : String)
  | response (statusCode : Nat) (status : String) (apiErr : Option String) (body : Except String α)

/-- `doJSON`. -/
def doJSON {α : Type} : HttpAnswer α → Except String α
  | .notCreated err => .error ("create request: " ++ err)
  | .failed err => .error ("http request: " ++ err)
  | .response statusCode status apiErr body =>
    if 400 ≤ statusCode then
      .error ("HTTP " ++ toString statusCode ++ ": " ++ apiErr.getD status)
    else body.mapError ("decode response: " ++ ·)

/-- What the calls of an upload answer: the errors of `os.Open`, if any, the size of the file, its
reads, the server and the goroutines. -/
structure Env where
  openFile : Option String
  stat : Except String Int
  reads : Reader
  initiate : InitiateRequest → HttpAnswer InitiateResponse
  reopenForUpload : Option String
  schedule : List PoolAct
  reopenForHash : Option String
  hashReads : Reader
  commit : CommitRequest → HttpAnswer CommitResponse
  typeByExtension : List Char → List Char

/-- The requests that have been sent, and what the call has returned, if it has. -/
structure Outcome where
  initiated : Option InitiateRequest
  committed : Option CommitRequest
  result : Option (Except String UploadResult)

/-! ## Paths -/

/-- `filepath.Base`. -/
def base (path : List Char) : List Char :=
  if path = [] then ['.']
  else
    let last := ((path.reverse.dropWhile (· = '/')).takeWhile (· ≠ '/')).reverse
    if last = [] then ['/'] else last

theorem base_ne_nil (path : List Char) : base path ≠ [] := by
  unfold base
  split
  · nofun
  · dsimp only
    split
    · nofun
    · next h => exact h

/-- `filepath.Ext`. -/
def ext (path : List Char) : List Char :=
  let last := path.reverse.takeWhile (· ≠ '/')
  let suffix := last.takeWhile (· ≠ '.')
  if suffix.length < last.length then '.' :: suffix.reverse else []

/-- `detectMIMEType`. -/
def detectMIMEType (typeByExtension : List Char → List Char) (filePath : List Char) : List Char :=
  let e := ext filePath
  let mimeType := if e ≠ [] then typeByExtension e else []
  if mimeType ≠ [] then mimeType else "application/octet-stream".toList

/-! ## Reading the file -/

def errText : FastCdc.Go.Err → String
  | .eof => "EOF"
  | .unexpectedEOF => "unexpected EOF"
  | .other msg => msg

section
variable (sum256 : List UInt8 → Vector UInt8 32)

/-- `sha256.Sum256`, as a slice. -/
def sha256 (bytes : List UInt8) : List UInt8 := (sum256 bytes).toList

/-- What the client makes of the answer of `ChunkAll`, which has to give chunks; `none` if it does
not return. -/
def chunked (label : String) :
    Except FastCdc.Go.Stop (List Chunk × Option FastCdc.Go.Err) →
      Option (Except String (List Chunk))
  | .error _ => none
  | .ok (_, some e) => some (.error (label ++ errText e))
  | .ok (chunks, none) =>
    if chunks = [] then some (.error "aegis: file produced no chunks") else some (.ok chunks)

/-- `ChunkAll` on the file. Its loops have fuel for every byte of the reads. -/
def chunkFile (label : String) (reads : Reader) : Option (Except String (List Chunk)) :=
  chunked label (chunkAll gearTable (sha256 sum256) ((reads.flatMap (·.bytes)).length + 1)
    (newWithConfig reads defaultConfig))

/-- `io.Copy`: the bytes up to `io.EOF`, unless a read fails. -/
def copyAll : Reader → Except FastCdc.Go.Err (List UInt8)
  | [] => .ok []
  | answer :: rest =>
    match answer.err with
    | none => (copyAll rest).map (answer.bytes ++ ·)
    | some .eof => .ok answer.bytes
    | some e => .error e

/-- `ComputeFileSHA256FromReader`. -/
def computeFileSHA256FromReader (reads : Reader) : Except FastCdc.Go.Err (List Char) :=
  (copyAll reads).map fun bytes => FastCdc.Go.encodeToString (sha256 sum256 bytes)

/-- Open the file again and hash it. -/
def fileHash (openLabel hashLabel : String) (env : Env) : Except String (List Char) :=
  match env.reopenForHash with
  | some e => .error (openLabel ++ e)
  | none => (computeFileSHA256FromReader sum256 env.hashReads).mapError fun e =>
    hashLabel ++ errText e

/-! ## Requests -/

/-- The chunks as the initiate request lists them. -/
def chunkInfos (chunks : List Chunk) : List ChunkInfo :=
  chunks.map fun ch => ⟨ch.hashHex, ch.size⟩

/-- `buildBlockMetas`: the chunks as the commit request lists them. -/
def buildBlockMetas (chunks : List Chunk) : List WireBlock :=
  chunks.mapIdx fun i ch => ⟨ch.hashHex, i, ch.offset, ch.size, []⟩

/-- The upload URLs by hash. -/
def urlMap (urls : List UploadUrl) : Table (List Char) UploadUrl :=
  urls.foldl (fun m u => m.insert u.blockHash u) ∅

/-- The server has given a URL for the chunk. -/
def hasURL (urls : List UploadUrl) (ch : Chunk) : Bool := ((urlMap urls).lookup ch.hashHex).isSome

/-- Steps 5 to 7 of `UploadFile`: the bytes that are uploaded and those that are not. -/
def transfer (env : Env) (chunks : List Chunk) (urls : List UploadUrl) (totalSize : Int) :
    Option (Except String (Int × Int)) :=
  let deduplicated := Pool.sizes (chunks.filter fun ch => !hasURL urls ch)
  if urls = [] then some (.ok (0, totalSize))
  else
    match env.reopenForUpload with
    | some e => some (.error ("aegis: reopen file for upload: " ++ e))
    | none =>
      match uploadChunksParallel env.schedule (chunks.filter (hasURL urls)) with
      | none => none
      | some (_, some e) => some (.error ("aegis: upload chunks: " ++ e))
      | some (uploaded, none) => some (.ok (uploaded, deduplicated))

/-- Steps 1 and 3 of `UploadFile`: the size of the file, and its chunks. -/
def prepare (env : Env) : Option (Except String (Int × List Chunk)) :=
  match env.openFile with
  | some e => some (.error ("aegis: open file: " ++ e))
  | none =>
    match env.stat with
    | .error e => some (.error ("aegis: stat file: " ++ e))
    | .ok totalSize =>
      (chunkFile sum256 "aegis: chunk file: " env.reads).map fun chunks => chunks.map (totalSize, ·)

/-- `Client.UploadFile`. -/
def uploadFile (tenantID : List Char) (env : Env) (opts : UploadOptions) : Outcome :=
  let mimeType :=
    if opts.mimeType = [] then detectMIMEType env.typeByExtension opts.filePath else opts.mimeType
  match prepare sum256 env with
  | none => ⟨none, none, none⟩
  | some (.error e) => ⟨none, none, some (.error e)⟩
  | some (.ok (totalSize, chunks)) =>
    let initReq : InitiateRequest :=
      ⟨tenantID, base opts.filePath, opts.parentID, opts.nodeID, totalSize, chunkInfos chunks⟩
    match doJSON (env.initiate initReq) with
    | .error e => ⟨some initReq, none, some (.error ("aegis: initiate: " ++ e))⟩
    | .ok initResp =>
      match transfer env chunks initResp.uploadURLs totalSize with
      | none => ⟨some initReq, none, none⟩
      | some (.error e) => ⟨some initReq, none, some (.error e)⟩
      | some (.ok (bytesUploaded, deduplicated)) =>
        match fileHash sum256 "aegis: reopen file for hash: " "aegis: compute file hash: " env with
        | .error e => ⟨some initReq, none, some (.error e)⟩
        | .ok hash =>
          let commitReq : CommitRequest :=
            ⟨initResp.sessionID, hash, mimeType, buildBlockMetas chunks⟩
          match doJSON (env.commit commitReq) with
          | .error e => ⟨some initReq, some commitReq, some (.error ("aegis: commit: " ++ e))⟩
          | .ok commitResp =>
            ⟨some initReq, some commitReq,
              some (.ok ⟨commitResp.versionID, commitResp.versionNumber,
              initResp.nodeID, initResp.sessionID, bytesUploaded, deduplicated⟩)⟩

/-! ## A file that does not change -/

/-- The file has the bytes `x` whenever it is looked at. -/
structure Env.Serves (env : Env) (x : List UInt8) : Prop where
  stat : ∀ size, env.stat = .ok size → size = x.length
  reads : Delivers env.reads x
  hashReads : Delivers env.hashReads x

/-- The blocks tile the file in the order of their indices, under the hashes of their bytes. -/
structure TilesFile (x : List UInt8) (blocks : List WireBlock) : Prop where
  index : ∀ (i : Nat) (b : WireBlock), blocks[i]? = some b → b.chunkIndex = i
  offset : ∀ (i : Nat) (b : WireBlock), blocks[i]? = some b →
    b.offset = ((blocks.take i).map WireBlock.sizeBytes).sum
  hash : ∀ b ∈ blocks, ∃ o n : Nat, b.offset = o ∧ b.sizeBytes = n ∧ 0 < n ∧
    b.blockHash = FastCdc.Go.encodeToString (sha256 sum256 (slice x o (o + n)))
  total : (blocks.map WireBlock.sizeBytes).sum = x.length

section
variable {sum256} {x : List UInt8} {chunks : List Chunk}

/-- Hashing reads the file that is delivered, or fails. -/
theorem copyAll_eq (h : Delivers reads x) (hcopy : copyAll reads = .ok bytes) : bytes = x := by
  obtain ⟨hends, rfl⟩ := h
  induction reads generalizing bytes with
  | nil =>
    cases hcopy
    rfl
  | cons answer rest ih =>
    rw [copyAll] at hcopy
    split at hcopy
    · cases hrest : copyAll rest with
      | error e =>
        rw [hrest] at hcopy
        cases hcopy
      | ok tail =>
        rw [hrest] at hcopy
        cases hcopy
        rw [List.flatMap_cons, ih hrest hends.2]
    · next heof =>
      cases hcopy
      rw [List.flatMap_cons, hends.1 heof, List.flatMap_nil, List.append_nil]
    · cases hcopy

theorem fileHash_eq {hash : List Char} (h : Delivers env.hashReads x)
    (hhash : fileHash sum256 openLabel hashLabel env = .ok hash) :
    hash = FastCdc.Go.encodeToString (sha256 sum256 x) := by
  unfold fileHash computeFileSHA256FromReader at hhash
  split at hhash
  · cases hhash
  · cases hcopy : copyAll env.hashReads with
    | error e =>
      rw [hcopy] at hhash
      cases hhash
    | ok bytes =>
      rw [hcopy] at hhash
      cases hhash
      rw [copyAll_eq h hcopy]

/-- **Chunks that the client goes on with** tile the file, whatever errors the reads met. -/
theorem chunkFile_covers (h : Delivers reads x)
    (hchunks : chunkFile sum256 label reads = some (.ok chunks)) :
    Covers (sha256 sum256) defaultConfig.params.maxChunk x 0 chunks x.length ∧ chunks ≠ [] := by
  have hfuel : x.length < (reads.flatMap (·.bytes)).length + 1 := by
    rw [h.2]
    exact Nat.lt_succ_self _
  have hmin : defaultConfig.params.minChunk ≤ defaultConfig.params.maxChunk := by decide
  have havg : defaultConfig.params.avgChunk ≤ defaultConfig.params.maxChunk := by decide
  obtain ⟨found, err, o, hall, hcovers, hend⟩ :=
    FastCdc.Go.chunkAll_covers gearTable (sha256 sum256) h hmin havg hfuel
  rw [chunkFile, hall] at hchunks
  cases err with
  | some e => cases hchunks
  | none =>
    rw [chunked] at hchunks
    split at hchunks
    · cases hchunks
    · next hne =>
      cases hchunks
      exact ⟨hend rfl ▸ hcovers, hne⟩

/-- The chunks of a file that is read without an error. -/
theorem chunkFile_of_feeds (h : FastCdc.Go.Feeds reads x) (hx : x ≠ []) :
    ∃ chunks, chunkFile sum256 label reads = some (.ok chunks) := by
  have hfuel : x.length < (reads.flatMap (·.bytes)).length + 1 := by
    rw [h.2]
    exact Nat.lt_succ_self _
  have hmin : defaultConfig.params.minChunk ≤ defaultConfig.params.maxChunk := by decide
  have hall := FastCdc.Go.chunkAll_eq gearTable (sha256 sum256) h (.inl hmin) hfuel
  have hne : FastCdc.Go.chunksFrom gearTable defaultConfig.params (sha256 sum256) 0 x ≠ [] := by
    rw [FastCdc.Go.chunksFrom_of_ne _ _ _ hx]
    exact List.cons_ne_nil _ _
  rw [chunkFile, hall, chunked, if_neg hne]
  exact ⟨_, rfl⟩

/-- The block of the `i`-th chunk. -/
theorem getElem?_buildBlockMetas (chunks : List Chunk) (i : Nat) :
    (buildBlockMetas chunks)[i]? =
      chunks[i]?.map fun ch => ⟨ch.hashHex, i, ch.offset, ch.size, []⟩ :=
  List.getElem?_mapIdx

theorem mem_buildBlockMetas (hb : b ∈ buildBlockMetas chunks) :
    ∃ i, ∃ ch ∈ chunks, b = ⟨ch.hashHex, i, ch.offset, ch.size, []⟩ := by
  obtain ⟨i, hi⟩ := List.mem_iff_getElem?.1 hb
  rw [getElem?_buildBlockMetas] at hi
  obtain ⟨ch, hch, rfl⟩ := Option.map_eq_some_iff.1 hi
  exact ⟨i, ch, List.mem_of_getElem? hch, rfl⟩

/-- The blocks of the commit have the sizes of the chunks. -/
theorem map_sizeBytes_buildBlockMetas (chunks : List Chunk) :
    (buildBlockMetas chunks).map WireBlock.sizeBytes = chunks.map fun ch => (ch.size : Int) := by
  refine List.ext_getElem? fun i => ?_
  rw [List.getElem?_map, List.getElem?_map, getElem?_buildBlockMetas, Option.map_map]
  rfl

theorem sum_natCast_size (chunks : List Chunk) :
    (chunks.map fun ch => (ch.size : Int)).sum = ((chunks.map (·.size)).sum : Nat) := by
  induction chunks with
  | nil => rfl
  | cons ch chunks ih =>
    rw [List.map_cons, List.map_cons, List.sum_cons, List.sum_cons, ih, Nat.cast_add]

/-- The sizes of the chunks that are uploaded and of those that are not. -/
theorem sizes_filter_add (p : Chunk → Bool) (chunks : List Chunk) :
    Pool.sizes (chunks.filter p) + Pool.sizes (chunks.filter fun ch => !p ch) =
      Pool.sizes chunks := by
  induction chunks with
  | nil => rfl
  | cons ch chunks ih =>
    unfold Pool.sizes at ih ⊢
    cases hp : p ch with
    | true =>
      rw [List.filter_cons_of_pos hp, List.filter_cons_of_neg (by simp [hp]), List.map_cons,
        List.map_cons, List.sum_cons, List.sum_cons, ← ih, Int.add_assoc]
    | false =>
      rw [List.filter_cons_of_neg (by simp [hp]), List.filter_cons_of_pos (by simp [hp]),
        List.map_cons, List.map_cons, List.sum_cons, List.sum_cons, ← ih]
      omega

section
variable {maxChunk : Nat} (h : Covers (sha256 sum256) maxChunk x 0 chunks x.length)
include h

theorem sizes_of_covers : Pool.sizes chunks = x.length := by
  rw [Pool.sizes, sum_natCast_size, ← h.sum_size, Nat.zero_add]

/-- The server accepts the hash and the size of a chunk. -/
theorem listed_of_covers (hch : ch ∈ chunks) : Ingress.Handlers.Listed ch.hashHex ch.size := by
  obtain ⟨o, n, rfl, hpos, -⟩ := h.mem hch
  obtain ⟨hlen, hdec⟩ :=
    Ingress.Handlers.decodeHash_encodeToString (sum256 (slice x o (o + n)))
  exact ⟨hlen, hdec, Int.natCast_pos.2 hpos⟩

theorem listed_buildBlockMetas :
    ∀ b ∈ buildBlockMetas chunks, Ingress.Handlers.Listed b.blockHash b.sizeBytes := by
  intro b hb
  obtain ⟨i, ch, hch, rfl⟩ := mem_buildBlockMetas hb
  exact listed_of_covers h hch

/-- **The blocks of the commit** tile the file. -/
theorem tilesFile_buildBlockMetas : TilesFile sum256 x (buildBlockMetas chunks) where
  index i b hb := by
    rw [getElem?_buildBlockMetas] at hb
    obtain ⟨ch, -, rfl⟩ := Option.map_eq_some_iff.1 hb
    rfl
  offset i b hb := by
    rw [getElem?_buildBlockMetas] at hb
    obtain ⟨ch, hch, rfl⟩ := Option.map_eq_some_iff.1 hb
    have hoff := h.offset_eq hch
    rw [Nat.zero_add] at hoff
    rw [List.map_take, map_sizeBytes_buildBlockMetas, ← List.map_take, sum_natCast_size]
    exact congrArg Nat.cast hoff
  hash b hb := by
    obtain ⟨i, ch, hch, rfl⟩ := mem_buildBlockMetas hb
    obtain ⟨o, n, rfl, hpos, -⟩ := h.mem hch
    exact ⟨o, n, rfl, rfl, hpos, rfl⟩
  total := by
    rw [map_sizeBytes_buildBlockMetas]
    exact sizes_of_covers h

end

/-! ## Uploading -/

theorem prepare_eq (h : prepare sum256 env = some (.ok (totalSize, chunks))) :
    env.stat = .ok totalSize ∧
      chunkFile sum256 "aegis: chunk file: " env.reads = some (.ok chunks) := by
  unfold prepare at h
  split at h
  · cases h
  · split at h
    · cases h
    · next size hstat =>
      obtain ⟨answer, hanswer, hmap⟩ := Option.map_eq_some_iff.1 h
      cases answer with
      | error e => cases hmap
      | ok found =>
        cases hmap
        exact ⟨hstat, hanswer⟩

/-- What is uploaded and what is not are the whole file. -/
theorem transfer_add (h : transfer env chunks urls totalSize = some (.ok (up, dedup)))
    (hsize : totalSize = Pool.sizes chunks) : up + dedup = totalSize := by
  unfold transfer at h
  dsimp only at h
  split at h
  · cases h
    exact Int.zero_add _
  · split at h
    · cases h
    · split at h
      · cases h
      · cases h
      · next hpool =>
        cases h
        rw [hsize, uploadChunksParallel_eq hpool, sizes_filter_add]

/-- **What has happened when `UploadFile` commits.** -/
theorem uploadFile_committed (h : (uploadFile sum256 tenantID env opts).committed = some req) :
    ∃ totalSize chunks resp up dedup hash mimeType,
      prepare sum256 env = some (.ok (totalSize, chunks)) ∧
      (uploadFile sum256 tenantID env opts).initiated = some ⟨tenantID, base opts.filePath,
        opts.parentID, opts.nodeID, totalSize, chunkInfos chunks⟩ ∧
      doJSON (env.initiate ⟨tenantID, base opts.filePath, opts.parentID, opts.nodeID, totalSize,
        chunkInfos chunks⟩) = .ok resp ∧
      transfer env chunks resp.uploadURLs totalSize = some (.ok (up, dedup)) ∧
      fileHash sum256 "aegis: reopen file for hash: " "aegis: compute file hash: " env = .ok hash ∧
      req = ⟨resp.sessionID, hash, mimeType, buildBlockMetas chunks⟩ ∧
      ∀ r, (uploadFile sum256 tenantID env opts).result = some (.ok r) →
        r.bytesUploaded = up ∧ r.deduplicated = dedup := by
  unfold uploadFile at h ⊢
  dsimp only at h ⊢
  cases hprep : prepare sum256 env with
  | none =>
    rw [hprep] at h
    cases h
  | some answer =>
  rw [hprep] at h
  cases answer with
  | error e => cases h
  | ok file =>
  obtain ⟨totalSize, chunks⟩ := file
  dsimp only at h ⊢
  cases hinit : doJSON (env.initiate ⟨tenantID, base opts.filePath, opts.parentID, opts.nodeID,
      totalSize, chunkInfos chunks⟩) with
  | error e =>
    rw [hinit] at h
    cases h
  | ok resp =>
  rw [hinit] at h
  dsimp only at h ⊢
  cases htrans : transfer env chunks resp.uploadURLs totalSize with
  | none =>
    rw [htrans] at h
    cases h
  | some answer =>
  rw [htrans] at h
  cases answer with
  | error e => cases h
  | ok bytes =>
  obtain ⟨up, dedup⟩ := bytes
  dsimp only at h ⊢
  cases hhash : fileHash sum256 "aegis: reopen file for hash: " "aegis: compute file hash: "
    env with
  | error e =>
    rw [hhash] at h
    cases h
  | ok hash =>
  rw [hhash] at h
  dsimp only at h ⊢
  split at h
  · cases h
    exact ⟨totalSize, chunks, resp, up, dedup, hash, _, rfl, rfl, hinit, htrans, rfl, rfl, nofun⟩
  · cases h
    refine ⟨totalSize, chunks, resp, up, dedup, hash, _, rfl, rfl, hinit, htrans, rfl, rfl, ?_⟩
    rintro r ⟨⟩
    exact ⟨rfl, rfl⟩

/-- When nothing fails before the commit, `UploadFile` reaches it. -/
theorem uploadFile_reaches {hash : List Char}
    (hprep : prepare sum256 env = some (.ok (totalSize, chunks)))
    (hinit : doJSON (env.initiate ⟨tenantID, base opts.filePath, opts.parentID, opts.nodeID,
      totalSize, chunkInfos chunks⟩) = .ok resp)
    (htrans : transfer env chunks resp.uploadURLs totalSize = some (.ok (up, dedup)))
    (hhash : fileHash sum256 "aegis: reopen file for hash: " "aegis: compute file hash: " env =
      .ok hash) : ∃ req, (uploadFile sum256 tenantID env opts).committed = some req := by
  unfold uploadFile
  rw [hprep]
  dsimp only
  rw [hinit]
  dsimp only
  rw [htrans]
  dsimp only
  rw [hhash]
  dsimp only
  split
  · exact ⟨_, rfl⟩
  · exact ⟨_, rfl⟩

/-- **Uploads by the client are correct.** For every file that is not empty and does not change,
every tenant that is named and every server whose sessions are named, whatever URLs it answers: if
`UploadFile` reaches the commit, then both requests pass the checks of the server and list as many
blocks, the committed blocks tile the file under the hashes of their bytes, the hash of the content
is that of the file, and the bytes uploaded and deduplicated add up to its size. -/
theorem uploadFile_correct (sum256 : List UInt8 → Vector UInt8 32) (tenantID : List Char)
    (env : Env) (opts : UploadOptions) (x : List UInt8) (req : CommitRequest)
    (hx : x ≠ []) (htenant : tenantID ≠ []) (hserves : env.Serves x)
    (hsession : ∀ initReq resp, doJSON (env.initiate initReq) = .ok resp → resp.sessionID ≠ [])
    (hreq : (uploadFile sum256 tenantID env opts).committed = some req) :
    ∃ initReq, (uploadFile sum256 tenantID env opts).initiated = some initReq ∧
      initReq.validate = .ok () ∧ req.validate = .ok () ∧
      req.blocks.length = initReq.chunks.length ∧ TilesFile sum256 x req.blocks ∧
      req.contentSha256 = FastCdc.Go.encodeToString (sha256 sum256 x) ∧
      ∀ r, (uploadFile sum256 tenantID env opts).result = some (.ok r) →
        r.bytesUploaded + r.deduplicated = x.length := by
  obtain ⟨totalSize, chunks, resp, up, dedup, hash, mimeType, hprep, hsent, hinit, htrans, hhash,
    rfl, hresult⟩ := uploadFile_committed hreq
  obtain ⟨hstat, hchunks⟩ := prepare_eq hprep
  obtain ⟨hcovers, hne⟩ := chunkFile_covers hserves.reads hchunks
  have hsize : totalSize = x.length := hserves.stat totalSize hstat
  have hhash' := fileHash_eq hserves.hashReads hhash
  refine ⟨_, hsent, ?_, ?_, ?_, tilesFile_buildBlockMetas hcovers, hhash', ?_⟩
  · have hpos : 0 < x.length := List.length_pos_iff.2 hx
    have hinfos : chunkInfos chunks ≠ [] := by simpa [chunkInfos] using hne
    unfold InitiateRequest.validate
    dsimp only
    rw [if_neg htenant, if_neg (base_ne_nil _), if_neg (by omega), if_neg hinfos,
      Ingress.Handlers.validateBlocks_eq_ok_iff, List.forall_mem_map, chunkInfos,
        List.forall_mem_map]
    exact fun ch hch => listed_of_covers hcovers hch
  · rw [CommitRequest.validate_eq_ok_iff]
    obtain ⟨hlen, hdec⟩ := Ingress.Handlers.decodeHash_encodeToString (sum256 x)
    refine ⟨hsession _ _ hinit, ?_, ?_, listed_buildBlockMetas hcovers⟩
    · exact hhash' ▸ hlen
    · exact hhash' ▸ hdec
  · exact List.length_mapIdx.trans (List.length_map _).symm
  · intro r hr
    obtain ⟨hup, hdedup⟩ := hresult r hr
    rw [hup, hdedup, ← hsize]
    exact transfer_add htrans (hsize.trans (sizes_of_covers hcovers).symm)

end

end

/-! ## A file of one byte -/

/-- In place of SHA-256. -/
def constantSum (_ : List UInt8) : Vector UInt8 32 := Vector.replicate 32 7

/-- The file has one byte, which the server asks for; one goroutine uploads it. -/
def smallEnv : Env where
  openFile := none
  stat := .ok 1
  reads := [⟨[9], none⟩]
  initiate req := .response 200 "200 OK" none
    (.ok ⟨['s'], ['n'], req.chunks.map fun c => ⟨c.blockHash, ['u'], c.sizeBytes⟩⟩)
  reopenForUpload := none
  schedule := [.acquire 0, .count 0, .report 0, .receive, .release 0, .finish 0, .close, .return]
  reopenForHash := none
  hashReads := [⟨[9], none⟩]
  commit _ := .response 201 "201 Created" none (.ok ⟨['v'], 1⟩)
  typeByExtension _ := []

def smallOptions : UploadOptions := ⟨"/tmp/a".toList, none, none, []⟩

theorem serves_smallEnv : smallEnv.Serves [9] where
  stat := by
    rintro size ⟨⟩
    rfl
  reads := ⟨⟨nofun, trivial⟩, rfl⟩
  hashReads := ⟨⟨nofun, trivial⟩, rfl⟩

/-- One byte is one chunk. -/
theorem chunkFile_smallEnv (label : String) : chunkFile constantSum label smallEnv.reads =
    some (.ok [chunkAt (sha256 constantSum) [9] 0 1]) := by
  have hfeeds : FastCdc.Go.Feeds smallEnv.reads [9] := ⟨.inl ⟨rfl, trivial⟩, rfl⟩
  obtain ⟨chunks, hchunks⟩ := chunkFile_of_feeds hfeeds (List.cons_ne_nil 9 [])
  obtain ⟨hcovers, hne⟩ := chunkFile_covers serves_smallEnv.reads hchunks
  rw [hchunks]
  generalize defaultConfig.params.maxChunk = maxChunk at hcovers
  generalize hend : ([9] : List UInt8).length = o' at hcovers
  cases hcovers with
  | nil => exact absurd rfl hne
  | @cons _ n _ rest hpos _ hin hrest =>
    have hlen := hrest.length_le
    have hn : n = 1 := by
      rw [Nat.zero_add] at hin
      exact le_antisymm hin hpos
    subst hn
    have hnil : rest = [] := List.length_eq_zero_iff.1 (by
      rw [List.length_singleton] at hend
      omega)
    rw [hnil]

theorem prepare_smallEnv : prepare constantSum smallEnv =
    some (.ok (1, [chunkAt (sha256 constantSum) [9] 0 1])) := by
  have hopen : smallEnv.openFile = none := rfl
  have hstat : smallEnv.stat = .ok 1 := rfl
  rw [prepare, hopen, hstat]
  dsimp only
  rw [chunkFile_smallEnv]
  rfl

/-- The one-byte file is uploaded, and committed as it is. -/
theorem uploadFile_correct_smallEnv : ∃ req,
    (uploadFile constantSum ['t'] smallEnv smallOptions).committed = some req ∧ ∃ initReq,
    (uploadFile constantSum ['t'] smallEnv smallOptions).initiated = some initReq ∧
      initReq.validate = .ok () ∧ req.validate = .ok () ∧
      req.blocks.length = initReq.chunks.length ∧ TilesFile constantSum [9] req.blocks ∧
      req.contentSha256 = FastCdc.Go.encodeToString (sha256 constantSum [9]) ∧
      ∀ r, (uploadFile constantSum ['t'] smallEnv smallOptions).result = some (.ok r) →
        r.bytesUploaded + r.deduplicated = ([9] : List UInt8).length := by
  obtain ⟨req, hreq⟩ :
      ∃ req, (uploadFile constantSum ['t'] smallEnv smallOptions).committed = some req :=
    uploadFile_reaches prepare_smallEnv rfl
      (show _ = some (Except.ok (1, 0)) by decide +kernel) rfl
  exact ⟨req, hreq, uploadFile_correct constantSum ['t'] smallEnv smallOptions [9] req
    (List.cons_ne_nil _ _) (List.cons_ne_nil _ _) serves_smallEnv
    (by rintro initReq resp ⟨⟩; exact List.cons_ne_nil _ _) hreq⟩

end Aegis.Client
