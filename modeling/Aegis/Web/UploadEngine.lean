import Aegis.Lib.Run
import Aegis.Lib.Table

/-!
# The upload engine of the web client (`web/lib/upload/upload-engine.ts`)

`uploadFile` chunks a file, asks the server which chunks it misses, uploads those with a pool of
workers that share a queue, and commits. A worker starts a PUT and is suspended until the browser
settles it; the PUTs settle in any order, and each may be answered with any status or be rejected.
The reading of the file and the three kinds of requests are answered as the caller of this model
says.

The engine does not look at the status of a PUT, passes over chunks without a URL, commits the hash
of the first chunk as that of the file, and turns a refused initiate request into a simulated
upload. So it resolves in cases where nothing has been stored; `honestCompletion_iff` says in which
it does not.

The callbacks for progress and deduplication are left out, and those for the status are taken to
return.
-/

namespace Aegis.Web

/-! ## Requests and their answers -/

structure ChunkResult where
  hash : List Char
  offset : Nat
  size : Nat
  data : List UInt8
  deriving DecidableEq

/-- A `File`: its name and its bytes. -/
structure File where
  name : List Char
  bytes : List UInt8

/-- `chunks` and `blocks` of the initiate request: hashes and sizes. -/
abbrev BlockList : Type := List (List Char × Nat)

structure InitiateUploadRequest where
  tenantId : List Char
  fileName : List Char
  parentId : Option (List Char)
  totalSize : Nat
  totalBytes : Nat
  chunks : BlockList
  blocks : BlockList

/-- What is read of the answer to it. A text that is absent is empty, a list that is absent too. -/
structure InitiateUploadResponse where
  sessionId : List Char
  nodeId : List Char
  missingBlocks : List (List Char × List Char)
  uploadUrls : List (List Char × List Char)

structure ManifestBlock where
  blockHash : List Char
  offsetBytes : Nat
  sizeBytes : Nat
  chunkIndex : Nat
  deriving DecidableEq

structure CommitUploadRequest where
  sessionId : List Char
  tenantId : List Char
  fileName : List Char
  parentId : Option (List Char)
  contentSha256 : List Char
  blocks : List ManifestBlock
  deriving DecidableEq

structure CommitUploadResponse where
  nodeId : List Char
  versionId : List Char

/-- What `fetch` comes to: an error, or a response with a status. -/
abbrev Settled : Type := Except String Nat

/-- The same for a response whose body is decoded as JSON, which can be `null`. -/
abbrev JsonSettled (α : Type) : Type := Except String (Nat × Except String (Option α))

/-- `Response.ok`. -/
def isOk (status : Nat) : Bool := 200 ≤ status && status ≤ 299

/-- What the browser and the server answer: the chunks of the file, the initiate request, the PUTs
in the order in which they settle, each with its worker, the commit, and the clock. -/
structure Answers where
  chunks : Except String (List ChunkResult)
  initiate : JsonSettled InitiateUploadResponse
  puts : List (Nat × Settled)
  commit : JsonSettled CommitUploadResponse
  now : Nat

/-! ## The workers -/

/-- `missingMap`: the URLs by hash; `upload_urls` take precedence. -/
def missingMap (data : InitiateUploadResponse) : Table (List Char) (List Char) :=
  (data.missingBlocks ++ data.uploadUrls).foldl (fun m b => m.insert b.1 b.2) ∅

/-- `chunksToUpload`. -/
def chunksToUpload (data : InitiateUploadResponse) (chunks : List ChunkResult) : List ChunkResult :=
  chunks.filter fun c => ((missingMap data).lookup c.hash).isSome

/-- `urlMap.get`, with an empty text for an absent one: both are falsy. -/
def urlOf (urlMap : Table (List Char) (List Char)) (c : ChunkResult) : List Char :=
  (urlMap.lookup c.hash).getD []

/-- A worker: it waits for a PUT, has left its loop, or has been rejected. -/
inductive Worker
  | waiting (chunk : ChunkResult)
  | done
  | failed
  deriving DecidableEq

/-- The queue, the workers, the PUTs that have been answered and the first rejection. -/
structure Pool where
  queue : List ChunkResult
  workers : List Worker
  puts : List (ChunkResult × Nat)
  failure : Option String

section
variable (urlMap : Table (List Char) (List Char))

/-- The loop of a worker up to its next PUT. -/
def nextPut : List ChunkResult → Worker × List ChunkResult
  | [] => (.done, [])
  | c :: queue => if urlOf urlMap c = [] then nextPut queue else (.waiting c, queue)

/-- Each worker runs to its first PUT when it is made. -/
def startWorkers : Nat → List ChunkResult → List Worker × List ChunkResult
  | 0, queue => ([], queue)
  | n + 1, queue =>
    let first := nextPut urlMap queue
    let others := startWorkers n first.2
    (first.1 :: others.1, others.2)

/-- The start of `parallelUpload`. -/
def Pool.start (concurrencyPoolSize : Int) (chunks : List ChunkResult) : Pool :=
  let made := startWorkers urlMap (min concurrencyPoolSize chunks.length).toNat chunks
  ⟨made.2, made.1, [], none⟩

/-- A PUT settles, and its worker goes on. -/
def Pool.step (p : Pool) (a : Nat × Settled) : Option Pool :=
  match p.workers[a.1]?, a.2 with
  | some (.waiting _), .error e =>
    some { p with workers := p.workers.set a.1 .failed, failure := p.failure.or (some e) }
  | some (.waiting c), .ok status =>
    let next := nextPut urlMap p.queue
    some { p with
      queue := next.2
      workers := p.workers.set a.1 next.1
      puts := p.puts ++ [(c, status)] }
  | _, _ => none

/-- `Promise.all` over the workers. -/
def Pool.settled (p : Pool) : Option (Except String Unit) :=
  match p.failure with
  | some e => some (.error e)
  | none => if p.workers.all (· = .done) then some (.ok ()) else none

end

/-! ## The engine -/

inductive Status
  | hashing
  | initiating
  | uploading
  | committing
  | completed
  | failed (error : String)
  deriving DecidableEq

/-- What `uploadFile` resolves to. -/
structure Uploaded where
  nodeId : List Char
  versionId : List Char
  deriving DecidableEq

/-- What has been reported, the requests, and how the promise has settled, if it has. -/
structure Outcome where
  statuses : List Status
  initiated : Option InitiateUploadRequest
  missing : List ChunkResult
  puts : List (ChunkResult × Nat)
  committed : Option CommitUploadRequest
  result : Option (Except String Uploaded)

/-- The `catch` of `uploadFile`. -/
def Outcome.fail (o : Outcome) (e : String) : Outcome :=
  { o with statuses := o.statuses ++ [.failed e], result := some (.error e) }

/-- `content_sha256` of the commit: the hash of the first chunk. -/
def contentSha256 (chunks : List ChunkResult) : List Char :=
  let hash := (chunks.head?.map ChunkResult.hash).getD []
  if hash = [] then List.replicate 64 '0' else hash

def initiatePayload (file : File) (tenantId : List Char) (parentId : Option (List Char))
    (chunks : List ChunkResult) : InitiateUploadRequest where
  tenantId := tenantId
  fileName := file.name
  parentId := parentId
  totalSize := file.bytes.length
  totalBytes := file.bytes.length
  chunks := chunks.map fun c => (c.hash, c.size)
  blocks := chunks.map fun c => (c.hash, c.size)

def commitPayload (file : File) (tenantId : List Char) (parentId : Option (List Char))
    (data : InitiateUploadResponse) (chunks : List ChunkResult) : CommitUploadRequest where
  sessionId := data.sessionId
  tenantId := tenantId
  fileName := file.name
  parentId := parentId
  contentSha256 := contentSha256 chunks
  blocks := chunks.mapIdx fun i c => ⟨c.hash, c.offset, c.size, i⟩

/-- What reading a field of `null` throws. -/
def nullError (field : String) : String :=
  "Cannot read properties of null (reading '" ++ field ++ "')"

/-- `mockUploadFlow`. -/
def mockUploadFlow (now : Nat) (o : Outcome) : Outcome :=
  { o with
    statuses := o.statuses ++ [.uploading, .committing, .completed]
    result := some (.ok ⟨"node-".toList ++ (toString now).toList, "v1.0.0".toList⟩) }

/-- Step 5 of `uploadFile`: the commit. Its body is read after the completion has been reported. -/
def commitUpload (a : Answers) (data : InitiateUploadResponse) (req : CommitUploadRequest)
    (o : Outcome) : Outcome :=
  let o : Outcome := { o with statuses := o.statuses ++ [.committing], committed := some req }
  match a.commit with
  | .error e => o.fail e
  | .ok (status, body) =>
    if isOk status then
      match body with
      | .error e => o.fail e
      | .ok commitData =>
        let o : Outcome := { o with statuses := o.statuses ++ [.completed] }
        match commitData with
        | none => o.fail (nullError "node_id")
        | some d => { o with result := some (.ok
            ⟨if d.nodeId = [] then data.nodeId else d.nodeId, d.versionId⟩) }
    else o.fail ("Commit failed with status " ++ toString status)

/-- Steps 4 and 5 of `uploadFile`. The promise is pending as long as PUTs are. -/
def transfer (concurrencyPoolSize : Int) (a : Answers) (data : InitiateUploadResponse)
    (missing : List ChunkResult) (req : CommitUploadRequest) (o : Outcome) : Outcome :=
  let o : Outcome := { o with statuses := o.statuses ++ [.uploading], missing := missing }
  match Run.run (Pool.step (missingMap data))
      (Pool.start (missingMap data) concurrencyPoolSize missing) a.puts with
  | none => o
  | some p =>
    let o : Outcome := { o with puts := p.puts }
    match p.settled with
    | none => o
    | some (.error e) => o.fail e
    | some (.ok ()) => commitUpload a data req o

/-- `AegisUploadEngine.uploadFile`. -/
def uploadFile (concurrencyPoolSize : Int) (file : File) (tenantId : List Char)
    (parentId : Option (List Char)) (a : Answers) : Outcome :=
  let o : Outcome := ⟨[.hashing], none, [], [], none, none⟩
  match a.chunks with
  | .error e => o.fail e
  | .ok chunks =>
    let o : Outcome := { o with
      statuses := o.statuses ++ [.initiating]
      initiated := some (initiatePayload file tenantId parentId chunks) }
    match a.initiate with
    | .error e => o.fail e
    | .ok (status, body) =>
      if isOk status then
        match body with
        | .error e => o.fail e
        | .ok none => o.fail (nullError "dedup_bytes_saved")
        | .ok (some data) =>
          transfer concurrencyPoolSize a data (chunksToUpload data chunks)
            (commitPayload file tenantId parentId data chunks) o
      else mockUploadFlow a.now o

/-! ## What the workers have done -/

section
variable {urlMap : Table (List Char) (List Char)}

/-- Where the chunks are that a worker takes off the queue. -/
structure Taken (urlMap : Table (List Char) (List Char)) (queue : List ChunkResult)
    (workers : List Worker) (rest : List ChunkResult) : Prop where
  covered : ∀ c ∈ queue, urlOf urlMap c ≠ [] → c ∈ rest ∨ .waiting c ∈ workers
  waiting : ∀ c, .waiting c ∈ workers → urlOf urlMap c ≠ []
  drained : .done ∈ workers → rest = []

theorem nextPut_taken (urlMap : Table (List Char) (List Char)) (queue : List ChunkResult) :
    Taken urlMap queue [(nextPut urlMap queue).1] (nextPut urlMap queue).2 := by
  induction queue with
  | nil => exact ⟨nofun, nofun, fun _ => rfl⟩
  | cons c queue ih =>
    rw [nextPut]
    split
    · next hurl =>
      refine ⟨fun d hd hne => ?_, ih.waiting, ih.drained⟩
      rcases List.mem_cons.1 hd with rfl | hd
      · exact absurd hurl hne
      · exact ih.covered d hd hne
    · next hurl =>
      refine ⟨fun d hd _ => ?_, fun d hd => ?_, nofun⟩
      · rcases List.mem_cons.1 hd with rfl | hd
        · exact .inr (List.mem_singleton.2 rfl)
        · exact .inl hd
      · cases List.mem_singleton.1 hd
        exact hurl

theorem startWorkers_nil (n : Nat) : (startWorkers urlMap n []).2 = [] := by
  induction n with
  | zero => rfl
  | succ n ih => exact ih

theorem startWorkers_taken (urlMap : Table (List Char) (List Char)) (n : Nat)
    (queue : List ChunkResult) :
    Taken urlMap queue (startWorkers urlMap n queue).1 (startWorkers urlMap n queue).2 := by
  induction n generalizing queue with
  | zero => exact ⟨fun c hc _ => .inl hc, nofun, nofun⟩
  | succ n ih =>
    have hfirst := nextPut_taken urlMap queue
    have hothers := ih (nextPut urlMap queue).2
    rw [startWorkers]
    dsimp only
    refine ⟨fun c hc hne => ?_, fun c hc => ?_, fun hdone => ?_⟩
    · rcases hfirst.covered c hc hne with hrest | hw
      · rcases hothers.covered c hrest hne with hrest | hw
        · exact .inl hrest
        · exact .inr (List.mem_cons_of_mem _ hw)
      · rw [List.mem_singleton.1 hw]
        exact .inr List.mem_cons_self
    · rcases List.mem_cons.1 hc with hw | hw
      · exact hfirst.waiting c (List.mem_singleton.2 hw)
      · exact hothers.waiting c hw
    · rcases List.mem_cons.1 hdone with hw | hw
      · rw [hfirst.drained (List.mem_singleton.2 hw)]
        exact startWorkers_nil n
      · exact hothers.drained hw

theorem length_startWorkers (n : Nat) (queue : List ChunkResult) :
    (startWorkers urlMap n queue).1.length = n := by
  induction n generalizing queue with
  | zero => rfl
  | succ n ih => exact congrArg (· + 1) (ih _)

/-- The invariant of the pool: the chunks that are to be uploaded are in the queue, with a worker,
or answered, and the queue is empty once a worker has left its loop. -/
structure Accounted (urlMap : Table (List Char) (List Char)) (todo : List ChunkResult) (crew : Nat)
    (p : Pool) : Prop where
  covered : ∀ c ∈ todo, urlOf urlMap c ≠ [] →
    c ∈ p.queue ∨ .waiting c ∈ p.workers ∨ ∃ status, (c, status) ∈ p.puts
  waiting : ∀ c, .waiting c ∈ p.workers → urlOf urlMap c ≠ []
  answered : ∀ put ∈ p.puts, urlOf urlMap put.1 ≠ []
  drained : .done ∈ p.workers → p.queue = []
  crewed : p.workers.length = crew
  manned : p.puts ≠ [] → 0 < crew

theorem accounted_start (concurrencyPoolSize : Int) (todo : List ChunkResult) :
    Accounted urlMap todo (min concurrencyPoolSize todo.length).toNat
      (Pool.start urlMap concurrencyPoolSize todo) := by
  have h := startWorkers_taken urlMap (min concurrencyPoolSize todo.length).toNat todo
  refine ⟨fun c hc hne => ?_, h.waiting, nofun, h.drained, length_startWorkers .., fun hne => ?_⟩
  · rcases h.covered c hc hne with hq | hw
    · exact .inl hq
    · exact .inr (.inl hw)
  · exact absurd rfl hne

variable {crew : Nat} {p p' : Pool} {todo : List ChunkResult}

/-- What a PUT does that settles. -/
theorem Pool.step_cases {a : Nat × Settled} (h : p.step urlMap a = some p') :
    ∃ c, p.workers[a.1]? = some (.waiting c) ∧
      ((∃ e, a.2 = .error e ∧ p' = { p with
          workers := p.workers.set a.1 .failed, failure := p.failure.or (some e) }) ∨
        ∃ status, a.2 = .ok status ∧ p' = { p with
          queue := (nextPut urlMap p.queue).2
          workers := p.workers.set a.1 (nextPut urlMap p.queue).1
          puts := p.puts ++ [(c, status)] }) := by
  unfold Pool.step at h
  split at h
  · next c e hw ha =>
    cases h
    exact ⟨c, hw, .inl ⟨e, ha, rfl⟩⟩
  · next c status hw ha =>
    cases h
    exact ⟨c, hw, .inr ⟨status, ha, rfl⟩⟩
  · cases h

/-- A worker that waits for another chunk is not the one whose PUT settles. -/
theorem waiting_mem_set {workers : List Worker} (hi : workers[i]? = some (.waiting c))
    (hd : .waiting d ∈ workers) : d = c ∨ .waiting d ∈ workers.set i w := by
  obtain ⟨j, hj⟩ := List.mem_iff_getElem?.1 hd
  by_cases hij : i = j
  · subst hij
    cases hi.symm.trans hj
    exact .inl rfl
  · refine .inr (List.mem_of_getElem? (i := j) ?_)
    rw [List.getElem?_set_ne hij, hj]

/-- **One settled PUT** keeps the account. -/
theorem Accounted.step (h : Accounted urlMap todo crew p) (hfail : p'.failure = none)
    (hstep : p.step urlMap a = some p') : Accounted urlMap todo crew p' := by
  obtain ⟨c, hc, ⟨e, -, rfl⟩ | ⟨status, -, rfl⟩⟩ := Pool.step_cases hstep
  · -- a rejection is kept
    cases hf : p.failure with
    | none =>
      rw [hf] at hfail
      cases hfail
    | some e' =>
      rw [hf] at hfail
      cases hfail
  have hnext := nextPut_taken urlMap p.queue
  have hpos : a.1 < p.workers.length := (List.getElem?_eq_some_iff.1 hc).1
  have hnew : (nextPut urlMap p.queue).1 ∈ p.workers.set a.1 (nextPut urlMap p.queue).1 :=
    List.mem_set hpos _
  constructor
  · intro d hd hne
    rcases h.covered d hd hne with hq | hw | ⟨s, hs⟩
    · rcases hnext.covered d hq hne with hrest | hw
      · exact .inl hrest
      · exact .inr (.inl (List.mem_singleton.1 hw ▸ hnew))
    · rcases waiting_mem_set hc hw with rfl | hw
      · exact .inr (.inr ⟨status, List.mem_append_right _ List.mem_cons_self⟩)
      · exact .inr (.inl hw)
    · exact .inr (.inr ⟨s, List.mem_append_left _ hs⟩)
  · intro d hd
    rcases List.mem_or_eq_of_mem_set hd with hold | hw
    · exact h.waiting d hold
    · exact hnext.waiting d (List.mem_singleton.2 hw)
  · intro put hput
    rcases List.mem_append.1 hput with hput | hput
    · exact h.answered put hput
    · rw [List.mem_singleton.1 hput]
      exact h.waiting c (List.mem_of_getElem? hc)
  · intro hdone
    rcases List.mem_or_eq_of_mem_set hdone with hold | hw
    · -- the queue was empty already
      have hempty := h.drained hold
      dsimp only
      rw [hempty]
      rfl
    · exact hnext.drained (List.mem_singleton.2 hw)
  · exact List.length_set.trans h.crewed
  · intro _
    rw [← h.crewed]
    exact Nat.lt_of_le_of_lt (Nat.zero_le _) hpos

/-- A run of settled PUTs: no rejection is forgotten, and every status is on record. -/
theorem run_settled (hrun : Run.run (Pool.step urlMap) p as = some p') :
    (p'.failure = none ↔ p.failure = none ∧ ∀ a ∈ as, ∃ status, a.2 = .ok status) ∧
      p'.puts.map Prod.snd = p.puts.map Prod.snd ++ as.filterMap fun a => a.2.toOption := by
  induction as generalizing p with
  | nil =>
    cases hrun
    exact ⟨⟨fun h => ⟨h, nofun⟩, fun h => h.1⟩, (List.append_nil _).symm⟩
  | cons a as ih =>
    obtain ⟨p₁, hstep, hrun⟩ := Option.bind_eq_some_iff.1 hrun
    obtain ⟨hfail, hputs⟩ := ih hrun
    rw [hfail, hputs, List.forall_mem_cons]
    obtain ⟨c, -, ⟨e, ha, rfl⟩ | ⟨status, ha, rfl⟩⟩ := Pool.step_cases hstep
    · refine ⟨?_, ?_⟩
      · constructor
        · rintro ⟨hnone, -⟩
          exact absurd (Option.or_eq_none_iff.1 hnone).2 nofun
        · rintro ⟨-, ⟨status, hok⟩, -⟩
          cases ha.symm.trans hok
      · rw [List.filterMap_cons_none (by rw [ha]; rfl)]
    · refine ⟨?_, ?_⟩
      · constructor
        · rintro ⟨hnone, hall⟩
          exact ⟨hnone, ⟨status, ha⟩, hall⟩
        · rintro ⟨hnone, -, hall⟩
          exact ⟨hnone, hall⟩
      · rw [List.filterMap_cons_some (b := status) (by rw [ha]; rfl), List.map_append,
          List.append_assoc]
        rfl

/-- **A run of settled PUTs** without a rejection keeps the account. -/
theorem Accounted.run (h : Accounted urlMap todo crew p)
    (hrun : Run.run (Pool.step urlMap) p as = some p') (hfail : p'.failure = none) :
    Accounted urlMap todo crew p' := by
  induction as generalizing p with
  | nil =>
    cases hrun
    exact h
  | cons a as ih =>
    obtain ⟨p₁, hstep, hrun⟩ := Option.bind_eq_some_iff.1 hrun
    exact ih (h.step ((run_settled hrun).1.1 hfail).1 hstep) hrun

theorem Pool.settled_eq_ok_iff (p : Pool) :
    p.settled = some (.ok ()) ↔ p.failure = none ∧ ∀ w ∈ p.workers, w = .done := by
  unfold Pool.settled
  cases p.failure with
  | some e => exact ⟨nofun, fun h => nomatch h.1⟩
  | none =>
    dsimp only
    split
    · next hall => exact ⟨fun _ => ⟨rfl, by simpa using hall⟩, fun _ => rfl⟩
    · next hall => exact ⟨nofun, fun h => absurd (by simpa using h.2) hall⟩

/-- **When the workers have finished**, every missing chunk that has a URL has been answered, if
there was a worker at all. -/
theorem Accounted.finished (h : Accounted urlMap todo crew p) (hdone : ∀ w ∈ p.workers, w = .done)
    (hcrew : 0 < crew) : ∀ c ∈ todo, urlOf urlMap c ≠ [] → ∃ status, (c, status) ∈ p.puts := by
  intro c hc hne
  rcases h.covered c hc hne with hq | hw | hput
  · obtain ⟨w, hw⟩ := List.exists_mem_of_length_pos (h.crewed ▸ hcrew)
    rw [h.drained (hdone w hw ▸ hw)] at hq
    cases hq
  · cases hdone _ hw
  · exact hput

end

/-! ## Honest completion -/

/-- What a completed upload should mean: the initiate response was ok, every PUT was answered with
an ok status and every missing chunk was PUT, and the commit was ok, of the hash of the file. -/
structure Honest (sha256 : List UInt8 → List Char) (file : File) (a : Answers) (o : Outcome) :
    Prop where
  initiated : ∃ status body, a.initiate = .ok (status, body) ∧ isOk status = true
  statuses : ∀ put ∈ o.puts, isOk put.2 = true
  uploaded : ∀ c ∈ o.missing, ∃ status, (c, status) ∈ o.puts
  committed : ∃ status body req, a.commit = .ok (status, body) ∧ isOk status = true ∧
    o.committed = some req ∧ req.contentSha256 = sha256 file.bytes

/-- The promise resolves, reporting the completion last, only if that is honest; otherwise, once it
is settled, it is rejected with the failure that is reported last. -/
structure HonestCompletion (sha256 : List UInt8 → List Char) (file : File) (a : Answers)
    (o : Outcome) : Prop where
  resolved : ∀ r, o.result = some (.ok r) →
    Honest sha256 file a o ∧ o.statuses.getLast? = some .completed
  otherwise : ∀ r, o.result = some r → ¬Honest sha256 file a o →
    ∃ e, r = .error e ∧ o.statuses.getLast? = some (.failed e)

/-- The answers that the engine deals with as it should: a request that is made to initiate is not
refused, and if nothing is rejected or refused, then all PUTs are answered ok, every missing chunk
has a URL and there is a worker for it, and the first chunk has the hash of the file. -/
structure Sound (sha256 : List UInt8 → List Char) (concurrencyPoolSize : Int) (file : File)
    (a : Answers) : Prop where
  accepted : ∀ chunks status body, a.chunks = .ok chunks → a.initiate = .ok (status, body) →
    isOk status = true
  sound : ∀ chunks status data status' commitData, a.chunks = .ok chunks →
    a.initiate = .ok (status, .ok (some data)) → (∀ put ∈ a.puts, ∃ status, put.2 = .ok status) →
    a.commit = .ok (status', .ok (some commitData)) → isOk status' = true →
    (∀ put ∈ a.puts, ∀ status, put.2 = .ok status → isOk status = true) ∧
      (∀ c ∈ chunksToUpload data chunks, urlOf (missingMap data) c ≠ []) ∧
      (chunksToUpload data chunks ≠ [] → 0 < concurrencyPoolSize) ∧
      contentSha256 chunks = sha256 file.bytes

section
variable {sha256 : List UInt8 → List Char} {file : File} {a : Answers} {o : Outcome}

/-- A failure that is reported is honest. -/
theorem honestCompletion_of_failed {e : String} (h : o.result = some (.error e))
    (hlast : o.statuses.getLast? = some (.failed e)) : HonestCompletion sha256 file a o where
  resolved r hr := by
    rw [h] at hr
    cases hr
  otherwise r hr _ := by
    rw [h] at hr
    cases hr
    exact ⟨e, rfl, hlast⟩

theorem honestCompletion_fail (o : Outcome) (e : String) :
    HonestCompletion sha256 file a (o.fail e) :=
  honestCompletion_of_failed rfl List.getLast?_concat

/-- A promise that resolves and reports completion is honest if the completion is. -/
theorem honestCompletion_of_completed (h : o.result = some (.ok r))
    (hlast : o.statuses.getLast? = some .completed) :
    HonestCompletion sha256 file a o ↔ Honest sha256 file a o := by
  constructor
  · intro hc
    exact (hc.resolved r h).1
  · intro hh
    exact ⟨fun _ _ => ⟨hh, hlast⟩, fun _ _ hn => absurd hh hn⟩

/-- The two ends of a commit. -/
theorem commitUpload_cases (a : Answers) (data : InitiateUploadResponse) (req : CommitUploadRequest)
    (o : Outcome) :
    ((∃ o' e, commitUpload a data req o = Outcome.fail o' e) ∧
        ∀ status d, a.commit = .ok (status, .ok (some d)) → isOk status = false) ∨
      ∃ status d, a.commit = .ok (status, .ok (some d)) ∧ isOk status = true ∧
        ∃ r, commitUpload a data req o = { o with
          statuses := o.statuses ++ [.committing] ++ [.completed]
          committed := some req
          result := some (.ok r) } := by
  unfold commitUpload
  dsimp only
  split
  · next e he => exact .inl ⟨⟨_, e, rfl⟩, fun status d h => nomatch he.symm.trans h⟩
  · next status body hcommit =>
    split
    · next hok =>
      split
      · exact .inl ⟨⟨_, _, rfl⟩, fun status d h => nomatch hcommit.symm.trans h⟩
      · split
        · exact .inl ⟨⟨_, _, rfl⟩, fun status d h => nomatch hcommit.symm.trans h⟩
        · next d => exact .inr ⟨status, d, hcommit, hok, _, rfl⟩
    · next hok =>
      refine .inl ⟨⟨_, _, rfl⟩, fun status' d h => ?_⟩
      cases hcommit.symm.trans h
      exact Bool.eq_false_iff.2 hok

/-- The workers' promises are fulfilled, and the commit is. -/
def Fulfilled (a : Answers) : Prop :=
  (∀ put ∈ a.puts, ∃ status, put.2 = .ok status) ∧
    ∃ status d, a.commit = .ok (status, .ok (some d)) ∧ isOk status = true

/-- The three ends of steps 4 and 5. -/
theorem transfer_cases (concurrencyPoolSize : Int) (a : Answers) (data : InitiateUploadResponse)
    (missing : List ChunkResult) (req : CommitUploadRequest) (o : Outcome) (ho : o.result = none) :
    (transfer concurrencyPoolSize a data missing req o).result = none ∨
      ((∃ o' e, transfer concurrencyPoolSize a data missing req o = Outcome.fail o' e) ∧
        ¬Fulfilled a) ∨
      ∃ p r, Run.run (Pool.step (missingMap data))
          (Pool.start (missingMap data) concurrencyPoolSize missing) a.puts = some p ∧
        p.settled = some (.ok ()) ∧ Fulfilled a ∧
        transfer concurrencyPoolSize a data missing req o = { o with
          statuses := o.statuses ++ [.uploading] ++ [.committing] ++ [.completed]
          missing := missing
          puts := p.puts
          committed := some req
          result := some (.ok r) } := by
  unfold transfer
  dsimp only
  split
  · exact .inl ho
  · next p hrun =>
    split
    · exact .inl ho
    · next e hsettled =>
      refine .inr (.inl ⟨⟨_, e, rfl⟩, fun hful => ?_⟩)
      have hnone := (run_settled hrun).1.2 ⟨rfl, hful.1⟩
      rw [Pool.settled, hnone] at hsettled
      dsimp only at hsettled
      split at hsettled <;> cases hsettled
    · next hsettled =>
      have hputs := ((run_settled hrun).1.1 ((Pool.settled_eq_ok_iff p).1 hsettled).1).2
      rcases commitUpload_cases a data req { o with
          statuses := o.statuses ++ [.uploading], missing := missing, puts := p.puts } with
        ⟨hfail, hrefused⟩ | ⟨status, d, hcommit, hok, r, heq⟩
      · refine .inr (.inl ⟨hfail, ?_⟩)
        rintro ⟨-, status, d, hcommit, hok⟩
        rw [hrefused status d hcommit] at hok
        cases hok
      · exact .inr (.inr ⟨p, r, hrun, hsettled, ⟨hputs, status, d, hcommit, hok⟩, heq⟩)

variable {concurrencyPoolSize : Int} {data : InitiateUploadResponse} {missing : List ChunkResult}
  {p : Pool}

/-- The statuses on record are those of the answers. -/
theorem puts_isOk_iff (hrun : Run.run (Pool.step (missingMap data))
      (Pool.start (missingMap data) concurrencyPoolSize missing) a.puts = some p) :
    (∀ put ∈ p.puts, isOk put.2 = true) ↔
      ∀ put ∈ a.puts, ∀ status, put.2 = .ok status → isOk status = true := by
  have hputs : p.puts.map Prod.snd = a.puts.filterMap fun put => put.2.toOption :=
    (run_settled hrun).2
  have hmem : ∀ status, (∃ put ∈ p.puts, put.2 = status) ↔
      ∃ put ∈ a.puts, put.2 = .ok status := by
    intro status
    rw [← List.mem_map, hputs, List.mem_filterMap]
    refine exists_congr fun put => and_congr_right fun _ => ?_
    cases put.2 with
    | error e => exact ⟨nofun, nofun⟩
    | ok s => exact ⟨fun h => congrArg Except.ok (Option.some_inj.1 h), fun h => by cases h; rfl⟩
  constructor
  · intro h put hput status hstatus
    obtain ⟨q, hq, rfl⟩ := (hmem status).2 ⟨put, hput, hstatus⟩
    exact h q hq
  · intro h put hput
    obtain ⟨q, hq, hstatus⟩ := (hmem put.2).1 ⟨put, hput, rfl⟩
    exact h q hq put.2 hstatus

/-- **Every missing chunk has been PUT** when the workers have finished, exactly if each has a URL
and the pool is not empty. -/
theorem missing_put_iff (hrun : Run.run (Pool.step (missingMap data))
      (Pool.start (missingMap data) concurrencyPoolSize missing) a.puts = some p)
    (hsettled : p.settled = some (.ok ())) :
    (∀ c ∈ missing, ∃ status, (c, status) ∈ p.puts) ↔
      (∀ c ∈ missing, urlOf (missingMap data) c ≠ []) ∧
        (missing ≠ [] → 0 < concurrencyPoolSize) := by
  obtain ⟨hnone, hdone⟩ := (Pool.settled_eq_ok_iff p).1 hsettled
  have hacc := (accounted_start concurrencyPoolSize missing).run hrun hnone
  constructor
  · intro h
    refine ⟨fun c hc => ?_, fun hne => ?_⟩
    · obtain ⟨status, hput⟩ := h c hc
      exact hacc.answered _ hput
    · obtain ⟨c, hc⟩ := List.exists_mem_of_ne_nil _ hne
      obtain ⟨status, hput⟩ := h c hc
      have hcrew := hacc.manned (List.ne_nil_of_mem hput)
      omega
  · rintro ⟨hurl, hpool⟩ c hc
    have hlen : 0 < missing.length := List.length_pos_of_mem hc
    have hpos := hpool (List.ne_nil_of_mem hc)
    exact hacc.finished hdone (by omega) c hc (hurl c hc)

/-- Once the server has answered the initiate request, completion is honest exactly if everything
that is fulfilled is as it should be. -/
theorem transfer_honest_iff (tenantId : List Char) (parentId : Option (List Char))
    (hinit : a.initiate = .ok (status, .ok (some data))) (hok : isOk status = true)
    (ho : o.result = none)
    (hr : (transfer concurrencyPoolSize a data (chunksToUpload data chunks)
      (commitPayload file tenantId parentId data chunks) o).result = some r) :
    HonestCompletion sha256 file a (transfer concurrencyPoolSize a data (chunksToUpload data chunks)
        (commitPayload file tenantId parentId data chunks) o) ↔
      (Fulfilled a →
        (∀ put ∈ a.puts, ∀ status, put.2 = .ok status → isOk status = true) ∧
          (∀ c ∈ chunksToUpload data chunks, urlOf (missingMap data) c ≠ []) ∧
          (chunksToUpload data chunks ≠ [] → 0 < concurrencyPoolSize) ∧
          contentSha256 chunks = sha256 file.bytes) := by
  rcases transfer_cases concurrencyPoolSize a data (chunksToUpload data chunks)
      (commitPayload file tenantId parentId data chunks) o ho with
    hnone | ⟨⟨o', e, heq⟩, hbroken⟩ | ⟨p, r', hrun, hsettled, hful, heq⟩
  · rw [hnone] at hr
    cases hr
  · rw [heq]
    exact iff_of_true (honestCompletion_fail o' e) fun hful => absurd hful hbroken
  · rw [heq, honestCompletion_of_completed rfl List.getLast?_concat]
    obtain ⟨-, status', d, hcommit, hok'⟩ := id hful
    constructor
    · intro hh _
      obtain ⟨hurl, hpool⟩ := (missing_put_iff hrun hsettled).1 hh.uploaded
      obtain ⟨_, _, req, -, -, hreq, hhash⟩ := hh.committed
      cases hreq
      exact ⟨(puts_isOk_iff hrun).1 hh.statuses, hurl, hpool, hhash⟩
    · intro h
      obtain ⟨hputs, hurl, hpool, hhash⟩ := h hful
      exact ⟨⟨status, _, hinit, hok⟩, (puts_isOk_iff hrun).2 hputs,
        (missing_put_iff hrun hsettled).2 ⟨hurl, hpool⟩, status', _, _, hcommit, hok', rfl, hhash⟩

end

/-- **When the completion of an upload is honest.** For every file, chunking result, size of the
pool and sequence of answers: a promise that is pending claims nothing, and one that is settled
resolves only if the completion is honest, and is rejected with a report otherwise, exactly if the
answers are sound. -/
theorem honestCompletion_iff (sha256 : List UInt8 → List Char) (concurrencyPoolSize : Int)
    (file : File) (tenantId : List Char) (parentId : Option (List Char)) (a : Answers) :
    ((uploadFile concurrencyPoolSize file tenantId parentId a).result = none →
        HonestCompletion sha256 file a (uploadFile concurrencyPoolSize file tenantId parentId a)) ∧
      ∀ r, (uploadFile concurrencyPoolSize file tenantId parentId a).result = some r →
        (HonestCompletion sha256 file a (uploadFile concurrencyPoolSize file tenantId parentId a) ↔
          Sound sha256 concurrencyPoolSize file a) := by
  refine ⟨fun hnone => ⟨fun r hr => ?_, fun r hr => ?_⟩, fun r hr => ?_⟩
  · cases hnone.symm.trans hr
  · cases hnone.symm.trans hr
  unfold uploadFile at hr ⊢
  dsimp only at hr ⊢
  cases hchunks : a.chunks with
  | error e =>
    refine iff_of_true (honestCompletion_fail _ e) ⟨?_, ?_⟩
    · intro chunks status body h
      cases hchunks.symm.trans h
    · intro chunks status data status' d h
      cases hchunks.symm.trans h
  | ok chunks =>
  rw [hchunks] at hr
  dsimp only at hr ⊢
  cases hinit : a.initiate with
  | error e =>
    refine iff_of_true (honestCompletion_fail _ e) ⟨?_, ?_⟩
    · intro chunks status body _ h
      cases hinit.symm.trans h
    · intro chunks status data status' d _ h
      cases hinit.symm.trans h
  | ok response =>
  obtain ⟨status, body⟩ := response
  rw [hinit] at hr
  dsimp only at hr ⊢
  by_cases hok : isOk status = true
  · rw [if_pos hok] at hr ⊢
    have haccepted : ∀ chunks status body, a.chunks = .ok chunks →
        a.initiate = .ok (status, body) → isOk status = true := by
      intro chunks' status' body' _ h
      cases hinit.symm.trans h
      exact hok
    cases body with
    | error e =>
      refine iff_of_true (honestCompletion_fail _ e) ⟨haccepted, ?_⟩
      intro chunks status data status' d _ h
      cases hinit.symm.trans h
    | ok decoded =>
    cases decoded with
    | none =>
      refine iff_of_true (honestCompletion_fail _ _) ⟨haccepted, ?_⟩
      intro chunks status data status' d _ h
      cases hinit.symm.trans h
    | some data =>
    dsimp only at hr ⊢
    rw [transfer_honest_iff tenantId parentId hinit hok rfl hr]
    constructor
    · intro h
      refine ⟨haccepted,
        fun chunks' status' data' status'' d hchunks' hinit' hputs hcommit hok' => ?_⟩
      cases hchunks.symm.trans hchunks'
      cases hinit.symm.trans hinit'
      exact h ⟨hputs, status'', d, hcommit, hok'⟩
    · rintro h ⟨hputs, status'', d, hcommit, hok'⟩
      exact h.sound chunks status data status'' d hchunks hinit hputs hcommit hok'
  · rw [if_neg hok]
    refine iff_of_false (fun h => ?_) fun h => hok (h.accepted chunks status body hchunks hinit)
    obtain ⟨hh, -⟩ := h.resolved _ rfl
    obtain ⟨status', body', hinit', hok'⟩ := hh.initiated
    cases hinit.symm.trans hinit'
    exact hok hok'

/-! ## A PUT that is refused -/

/-- A file of one byte, which is one chunk. -/
def oneByte : File := ⟨"a".toList, [9]⟩

/-- The server asks for the chunk; its PUT is answered with a status, and the commit is accepted. -/
def putAnswered (status : Nat) : Answers where
  chunks := .ok [⟨['h'], 0, 1, [9]⟩]
  initiate := .ok (200, .ok (some ⟨['s'], ['n'], [], [(['h'], ['u'])]⟩))
  puts := [(0, .ok status)]
  commit := .ok (201, .ok (some ⟨[], ['v']⟩))
  now := 0

/-- The initiate request is refused. -/
def initiateRefused : Answers := { putAnswered 200 with initiate := .ok (400, .ok none) }

/-- **Completion is reported of uploads that have failed**: the PUT of the only chunk is answered
with 500, or the initiate request with 400. The hash function is one under which the commit has the
hash of the file. -/
theorem completed_after_refusal :
    ¬HonestCompletion (fun _ => ['h']) oneByte (putAnswered 500)
        (uploadFile 4 oneByte ['t'] none (putAnswered 500)) ∧
      ¬HonestCompletion (fun _ => ['h']) oneByte initiateRefused
        (uploadFile 4 oneByte ['t'] none initiateRefused) := by
  constructor
  · intro h
    have hresult : (uploadFile 4 oneByte ['t'] none (putAnswered 500)).result =
        some (.ok ⟨['n'], ['v']⟩) := by decide +kernel
    have hput : ((⟨['h'], 0, 1, [9]⟩ : ChunkResult), 500) ∈
        (uploadFile 4 oneByte ['t'] none (putAnswered 500)).puts := by decide +kernel
    exact absurd ((h.resolved _ hresult).1.statuses _ hput) (by decide)
  · intro h
    have hresult : (uploadFile 4 oneByte ['t'] none initiateRefused).result =
        some (.ok ⟨"node-0".toList, "v1.0.0".toList⟩) := by decide +kernel
    obtain ⟨status, body, hinit, hok⟩ := (h.resolved _ hresult).1.initiated
    cases hinit
    cases hok

end Aegis.Web
