import Aegis.Client.Upload

/-!
# Resuming an upload (`aegis/session.go`)

`ResumeUpload` chunks the file again and leaves out the chunks that its saved state lists as
uploaded. If none is left, it commits the saved session under the hash of the file. Otherwise it
opens a session for the missing chunks only, uploads them and commits all chunks to that session,
with no hash of the content.

The server keeps the number of chunks that each session expects, which is the length of the list its
initiate request had, and a commit has to bring that many blocks and a hash of 64 digits. So a
resumed upload that still has something to upload is not accepted (`resumeUpload_missing`).
-/

namespace Aegis.Client

open FastCdc.Go (Chunk Delivers chunkAt)
open Ingress.Handlers (InitiateRequest CommitRequest)

/-- The fields of `SessionState` that `ResumeUpload` reads. -/
structure SessionState where
  sessionID : List Char
  filePath : List Char
  nodeID : List Char
  totalSize : Int
  mimeType : List Char
  uploaded : List (List Char)

section
variable (sum256 : List UInt8 → Vector UInt8 32)

/-- The chunks that are not in the saved list. -/
def missing (state : SessionState) (chunks : List Chunk) : List Chunk :=
  chunks.filter fun ch => !state.uploaded.contains ch.hashHex

/-- `commitSession`. -/
def commitSession (env : Env) (state : SessionState) (chunks : List Chunk) : Outcome :=
  match fileHash sum256 "aegis: open for hash: " "aegis: compute hash: " env with
  | .error e => ⟨none, none, some (.error e)⟩
  | .ok hash =>
    let req : CommitRequest := ⟨state.sessionID, hash, state.mimeType, buildBlockMetas chunks⟩
    match doJSON (env.commit req) with
    | .error e => ⟨none, some req, some (.error ("aegis: commit: " ++ e))⟩
    | .ok resp =>
      ⟨none, some req, some (.ok ⟨resp.versionID, resp.versionNumber, state.nodeID, state.sessionID,
        0, 0⟩)⟩

/-- The upload of missing chunks: the bytes uploaded. -/
def uploadMissing (env : Env) (chunks : List Chunk) (urls : List Ingress.Handlers.UploadUrl) :
    Option (Except String Int) :=
  match env.reopenForUpload with
  | some e => some (.error ("aegis: reopen file: " ++ e))
  | none =>
    if urls = [] then some (.ok 0)
    else
      match uploadChunksParallel env.schedule (chunks.filter (hasURL urls)) with
      | none => none
      | some (_, some e) => some (.error ("aegis: upload missing chunks: " ++ e))
      | some (uploaded, none) => some (.ok uploaded)

/-- The state that is kept once the missing chunks are uploaded. -/
def resumed (state : SessionState) (opts : UploadOptions) (resp : InitiateResponse)
    (chunks : List Chunk) : SessionState :=
  { state with
    uploaded := chunks.map (·.hashHex)
    sessionID := resp.sessionID
    filePath := if opts.filePath = [] then state.filePath else opts.filePath }

/-- The part of `ResumeUpload` that is for missing chunks. -/
def resumeMissing (tenantID : List Char) (env : Env) (state : SessionState) (opts : UploadOptions)
    (chunks : List Chunk) : Outcome × SessionState :=
  let initReq : InitiateRequest := ⟨tenantID, base state.filePath, none, some state.nodeID,
    state.totalSize, chunkInfos (missing state chunks)⟩
  match doJSON (env.initiate initReq) with
  | .error e => (⟨some initReq, none, some (.error ("aegis: initiate resume: " ++ e))⟩, state)
  | .ok initResp =>
    match uploadMissing env (missing state chunks) initResp.uploadURLs with
    | none => (⟨some initReq, none, none⟩, state)
    | some (.error e) => (⟨some initReq, none, some (.error e)⟩, state)
    | some (.ok bytesUploaded) =>
      let req : CommitRequest := ⟨initResp.sessionID, [], state.mimeType, buildBlockMetas chunks⟩
      match doJSON (env.commit req) with
      | .error e => (⟨some initReq, some req, some (.error ("aegis: commit resume: " ++ e))⟩,
        resumed state opts initResp chunks)
      | .ok resp =>
        (⟨some initReq, some req, some (.ok ⟨resp.versionID, resp.versionNumber, initResp.nodeID,
          initResp.sessionID, bytesUploaded, 0⟩)⟩, resumed state opts initResp chunks)

/-- `Client.ResumeUpload`, and the state it leaves behind. -/
def resumeUpload (tenantID : List Char) (env : Env) (state : SessionState) (opts : UploadOptions) :
    Outcome × SessionState :=
  match env.openFile with
  | some e => (⟨none, none, some (.error ("aegis: open file: " ++ e))⟩, state)
  | none =>
    match chunkFile sum256 "aegis: re-chunk file: " env.reads with
    | none => (⟨none, none, none⟩, state)
    | some (.error e) => (⟨none, none, some (.error e)⟩, state)
    | some (.ok chunks) =>
      if missing state chunks = [] then (commitSession sum256 env state chunks, state)
      else resumeMissing tenantID env state opts chunks

/-! ## The sessions of the server -/

/-- `expected_chunks` of the sessions, by their ids. -/
abbrev Sessions : Type := Table (List Char) Int

/-- The sessions once the initiate request has been answered: a new session expects as many chunks
as the request lists. -/
def Sessions.initiated (sessions : Sessions) (env : Env) : Option InitiateRequest → Sessions
  | none => sessions
  | some req =>
    match doJSON (env.initiate req) with
    | .error _ => sessions
    | .ok resp => sessions.insert resp.sessionID req.chunks.length

/-- The request passes `Validate`, and brings as many blocks as its session expects. -/
structure Sessions.Accepts (sessions : Sessions) (req : CommitRequest) : Prop where
  valid : req.validate = .ok ()
  expected : sessions.lookup req.sessionId = some (req.blocks.length : Int)

/-! ## What is committed -/

section
variable {sum256} {tenantID : List Char} {env : Env} {state : SessionState} {opts : UploadOptions}
  {chunks : List Chunk} {req : CommitRequest}

theorem missing_eq_nil_iff :
    missing state chunks = [] ↔ ∀ ch ∈ chunks, ch.hashHex ∈ state.uploaded := by
  simp [missing, List.filter_eq_nil_iff]

theorem length_buildBlockMetas (chunks : List Chunk) :
    (buildBlockMetas chunks).length = chunks.length :=
  List.length_mapIdx

/-- The commit of a session that is complete. -/
theorem commitSession_committed (h : (commitSession sum256 env state chunks).committed = some req) :
    (commitSession sum256 env state chunks).initiated = none ∧ ∃ hash,
      fileHash sum256 "aegis: open for hash: " "aegis: compute hash: " env = .ok hash ∧
      req = ⟨state.sessionID, hash, state.mimeType, buildBlockMetas chunks⟩ := by
  unfold commitSession at h ⊢
  split at h
  · cases h
  · next hash hhash =>
    dsimp only at h ⊢
    split at h
    · cases h
      exact ⟨rfl, hash, hhash, rfl⟩
    · cases h
      exact ⟨rfl, hash, hhash, rfl⟩

/-- **The commit of missing chunks** names a session that expects these only, and no hash. -/
theorem resumeMissing_committed
    (h : (resumeMissing tenantID env state opts chunks).1.committed = some req) :
    ∃ initReq resp, (resumeMissing tenantID env state opts chunks).1.initiated = some initReq ∧
      initReq.chunks.length = (missing state chunks).length ∧
      doJSON (env.initiate initReq) = .ok resp ∧
      req = ⟨resp.sessionID, [], state.mimeType, buildBlockMetas chunks⟩ := by
  unfold resumeMissing at h ⊢
  dsimp only at h ⊢
  split at h
  · cases h
  · next resp hinit =>
    split at h
    · cases h
    · cases h
    · split at h
      · cases h
        exact ⟨_, resp, rfl, List.length_map _, hinit, rfl⟩
      · cases h
        exact ⟨_, resp, rfl, List.length_map _, hinit, rfl⟩

theorem resumeUpload_eq (tenantID : List Char) (state : SessionState) (opts : UploadOptions)
    (hopen : env.openFile = none)
    (hchunks : chunkFile sum256 "aegis: re-chunk file: " env.reads = some (.ok chunks)) :
    resumeUpload sum256 tenantID env state opts =
      if missing state chunks = [] then (commitSession sum256 env state chunks, state)
      else resumeMissing tenantID env state opts chunks := by
  unfold resumeUpload
  rw [hopen, hchunks]

/-- The two ways to a commit. -/
theorem resumeUpload_committed
    (h : (resumeUpload sum256 tenantID env state opts).1.committed = some req)
    (hchunks : chunkFile sum256 "aegis: re-chunk file: " env.reads = some (.ok chunks)) :
    (missing state chunks = [] ∧ resumeUpload sum256 tenantID env state opts =
        (commitSession sum256 env state chunks, state)) ∨
      (missing state chunks ≠ [] ∧ resumeUpload sum256 tenantID env state opts =
        resumeMissing tenantID env state opts chunks) := by
  cases hopen : env.openFile with
  | some e =>
    unfold resumeUpload at h
    rw [hopen] at h
    cases h
  | none =>
    rw [resumeUpload_eq tenantID state opts hopen hchunks]
    by_cases hnone : missing state chunks = []
    · exact .inl ⟨hnone, if_pos hnone⟩
    · exact .inr ⟨hnone, if_neg hnone⟩

/-- **With chunks missing the server refuses**: the commit has no hash of the content, and unless
all chunks are missing it brings more blocks than its session expects. -/
theorem resumeUpload_missing (sessions : Sessions)
    (h : (resumeUpload sum256 tenantID env state opts).1.committed = some req)
    (hchunks : chunkFile sum256 "aegis: re-chunk file: " env.reads = some (.ok chunks))
    (hmissing : missing state chunks ≠ []) :
    req.validate ≠ .ok () ∧
      (sessions.initiated env (resumeUpload sum256 tenantID env state opts).1.initiated).lookup
        req.sessionId = some ((missing state chunks).length : Int) ∧
      req.blocks.length = chunks.length := by
  obtain ⟨hnone, -⟩ | ⟨-, hrun⟩ := resumeUpload_committed h hchunks
  · exact absurd hnone hmissing
  rw [hrun] at h ⊢
  obtain ⟨initReq, resp, hsent, hlen, hinit, rfl⟩ := resumeMissing_committed h
  refine ⟨?_, ?_, length_buildBlockMetas chunks⟩
  · rw [ne_eq, CommitRequest.validate_eq_ok_iff]
    rintro ⟨-, hhash, -⟩
    have hzero : Ingress.Handlers.byteLen [] = 64 := hhash
    exact absurd hzero (by decide)
  · rw [hsent, Sessions.initiated, hinit]
    dsimp only
    rw [AList.lookup_insert, hlen]

/-- **When a resumed upload is accepted.** For every file that does not change, every saved state,
every server and its sessions: a commit that `ResumeUpload` sends passes `Validate` and the
comparison with the chunks its session expects exactly if every chunk of the file is in the saved
list, and the saved session is named and expects as many chunks as the file has. -/
theorem resumeUpload_accepted_iff (sum256 : List UInt8 → Vector UInt8 32) (tenantID : List Char)
    (env : Env) (state : SessionState) (opts : UploadOptions) (sessions : Sessions) (x : List UInt8)
    (chunks : List Chunk) (req : CommitRequest) (hserves : env.Serves x)
    (hchunks : chunkFile sum256 "aegis: re-chunk file: " env.reads = some (.ok chunks))
    (h : (resumeUpload sum256 tenantID env state opts).1.committed = some req) :
    (sessions.initiated env (resumeUpload sum256 tenantID env state opts).1.initiated).Accepts req ↔
      (∀ ch ∈ chunks, ch.hashHex ∈ state.uploaded) ∧ state.sessionID ≠ [] ∧
        sessions.lookup state.sessionID = some (chunks.length : Int) := by
  obtain ⟨hcovers, -⟩ := chunkFile_covers hserves.reads hchunks
  rw [← missing_eq_nil_iff]
  by_cases hnone : missing state chunks = []
  · obtain ⟨-, hrun⟩ | ⟨hsome, -⟩ := resumeUpload_committed h hchunks
    · rw [hrun] at h ⊢
      obtain ⟨hsent, hash, hhash, rfl⟩ := commitSession_committed h
      have hhash' := fileHash_eq hserves.hashReads hhash
      obtain ⟨hlen, hdec⟩ := Ingress.Handlers.decodeHash_encodeToString (sum256 x)
      dsimp only
      rw [hsent, Sessions.initiated]
      constructor
      · rintro ⟨hvalid, hexpected⟩
        obtain ⟨hsession, -⟩ := (CommitRequest.validate_eq_ok_iff _).1 hvalid
        rw [length_buildBlockMetas] at hexpected
        exact ⟨hnone, hsession, hexpected⟩
      · rintro ⟨-, hsession, hexpected⟩
        refine ⟨(CommitRequest.validate_eq_ok_iff _).2 ⟨hsession, ?_, ?_, ?_⟩, ?_⟩
        · exact hhash' ▸ hlen
        · exact hhash' ▸ hdec
        · exact listed_buildBlockMetas hcovers
        · rw [length_buildBlockMetas]
          exact hexpected
    · exact absurd hnone hsome
  · obtain ⟨hinvalid, -⟩ := resumeUpload_missing sessions h hchunks hnone
    exact ⟨fun hacc => absurd hacc.valid hinvalid, fun hcond => absurd hcond.1 hnone⟩

end

end

/-! ## The file of one byte, again -/

/-- What is saved of an upload of the file: the session, and which chunks are uploaded. -/
def smallState (uploaded : List (List Char)) : SessionState :=
  ⟨['s'], "/tmp/a".toList, ['n'], 1, [], uploaded⟩

/-- The hash of its chunk. -/
def smallHash : List Char := FastCdc.Go.encodeToString (sha256 constantSum [9])

/-- The session of the first attempt. -/
def smallSessions : Sessions := AList.insert ['s'] 1 ∅

/-- **A resumed upload is refused**: nothing of the file has been uploaded yet, the byte is
uploaded, and the commit has no hash of the content. -/
theorem resumeUpload_refused : ∃ req,
    (resumeUpload constantSum ['t'] smallEnv (smallState []) smallOptions).1.committed = some req ∧
      ¬(smallSessions.initiated smallEnv
        (resumeUpload constantSum ['t'] smallEnv (smallState []) smallOptions).1.initiated).Accepts
          req := by
  have hmissing : missing (smallState []) [chunkAt (sha256 constantSum) [9] 0 1] ≠ [] := by decide
  have hrun := resumeUpload_eq ['t'] (smallState []) smallOptions rfl (chunkFile_smallEnv _)
  rw [if_neg hmissing] at hrun
  have hcommit : ∃ req, (resumeUpload constantSum ['t'] smallEnv (smallState [])
      smallOptions).1.committed = some req := by
    rw [hrun]
    refine Option.isSome_iff_exists.1 ?_
    decide +kernel
  obtain ⟨req, hreq⟩ := hcommit
  obtain ⟨hinvalid, -⟩ := resumeUpload_missing smallSessions hreq (chunkFile_smallEnv _) hmissing
  exact ⟨req, hreq, fun hacc => hinvalid hacc.valid⟩

/-- With the byte uploaded, the commit is sent, and accepted. -/
theorem resumeUpload_accepted_iff_uploaded : ∃ req,
    (resumeUpload constantSum ['t'] smallEnv (smallState [smallHash]) smallOptions).1.committed =
        some req ∧
      (smallSessions.initiated smallEnv (resumeUpload constantSum ['t'] smallEnv
        (smallState [smallHash]) smallOptions).1.initiated).Accepts req := by
  have hmissing : missing (smallState [smallHash]) [chunkAt (sha256 constantSum) [9] 0 1] = [] := by
    decide +kernel
  have hrun := resumeUpload_eq ['t'] (smallState [smallHash]) smallOptions rfl
    (chunkFile_smallEnv _)
  rw [if_pos hmissing] at hrun
  have hcommit : ∃ req, (resumeUpload constantSum ['t'] smallEnv (smallState [smallHash])
      smallOptions).1.committed = some req := by
    rw [hrun]
    exact ⟨_, rfl⟩
  obtain ⟨req, hreq⟩ := hcommit
  refine ⟨req, hreq, (resumeUpload_accepted_iff constantSum ['t'] smallEnv (smallState [smallHash])
    smallOptions smallSessions [9] _ req serves_smallEnv (chunkFile_smallEnv _) hreq).2 ?_⟩
  exact ⟨missing_eq_nil_iff.1 hmissing, List.cons_ne_nil _ _, by decide⟩

end Aegis.Client
