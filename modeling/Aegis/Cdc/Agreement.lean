import Aegis.Cdc.Loops
import Aegis.Ingress.Dedup

/-!
# The two paths to the derivation workers

A committed version reaches `WorkerPool.ProcessEvent` by the in-process `derivationBridge`
(cmd/ingest/derivation_bridge.go), which passes on the event that `handleCommit` publishes, or by
Kafka: the change event of the row in `file_versions`, a task of the router, and the event that the
consumer makes of the task. The task carries less than the event, and the consumer passes on only
the version, the tenant and the MIME type. So the workers never see the same event on the two paths:
by Kafka it comes without its node, size, content hash and chunks.
-/

namespace Aegis.Cdc

open Ingress Ingress.Handlers

/-! ## The bridge -/

/-- The event that `derivationBridge.PublishFileCommitted` makes of a committed version, with the
generated id and the time of the event. -/
def bridgeEvent (eventId createdAt : List Char) (e : FileCommittedEvent) : Event where
  eventId := eventId
  eventType := e.eventType.toList
  versionId := e.versionId.text
  nodeId := (e.nodeId.map Uuid.text).getD []
  tenantId := e.tenantId.text
  totalSize := e.totalSize
  mimeType := e.mimeType
  contentSha256 := e.contentSha256
  createdAt := createdAt
  chunks := e.chunks.map fun c => ⟨c.index, c.blockHash, c.sizeBytes, c.offsetBytes⟩

/-- `derivationBridge.PublishFileCommitted`: an event for which the channel has no room is
dropped. -/
def publishFileCommitted (queue : List Event) (eventId createdAt : List Char)
    (e : FileCommittedEvent) : List Event :=
  if queue.length < 256 then queue ++ [bridgeEvent eventId createdAt e] else queue

/-- An event that is added to the channel is that of the version. -/
theorem eq_bridgeEvent (h : publishFileCommitted queue eventId createdAt e = queue ++ [x]) :
    x = bridgeEvent eventId createdAt e := by
  rw [publishFileCommitted] at h
  split at h
  · exact (List.singleton_injective (List.append_cancel_left h)).symm
  · exact absurd (congrArg List.length h) (by simp)

/-! ## The Kafka path -/

/-- The change event of the INSERT of a version, with what the router reads of it. `CommitFile`
gives no `mime_type`, so the row has the default; the connector writes `bytea` as text. -/
def versionInserted (bytea : Hash → List Char) (v : Uuid) (r : VersionRow) (timestamp : Int64) :
    DebeziumPayloadEnvelope where
  after := some <| (∅ : Table String Value)
    |>.insert "version_id" (.str v.text)
    |>.insert "node_id" (.str r.nodeId.text)
    |>.insert "version_number" .other
    |>.insert "total_size_bytes" .other
    |>.insert "mime_type" (.str "application/octet-stream".toList)
    |>.insert "content_sha256" (.str (bytea r.contentSha256))
    |>.insert "created_by" (.str r.createdBy.text)
  op := ['c']
  timestamp := timestamp

/-- The event that `processMessage` hands to the pool for the task that `routeMessage` writes. -/
def kafkaEvent (J : Codec) (msg : Message) : Option Event :=
  match routeMessage J msg with
  | .call (.writeMessages .tasks _ key payload) _ =>
    match processMessage J ⟨0, 0, key, payload⟩ with
    | .call (.processEvent _ event) _ => some event
    | _ => none
  | _ => none

/-- The two events agree on what workers are to know of a version. -/
structure Agrees (x y : Event) : Prop where
  versionId : x.versionId = y.versionId
  tenantId : x.tenantId = y.tenantId
  nodeId : x.nodeId = y.nodeId
  mimeType : x.mimeType = y.mimeType
  totalSize : x.totalSize = y.totalSize
  contentSha256 : x.contentSha256 = y.contentSha256
  chunks : x.chunks = y.chunks

variable {J : Codec} {msg : Message}

/-- **What arrives by Kafka**: the version, the tenant and the MIME type of the task. -/
theorem kafkaEvent_eq (hJ : ∀ t, J.task (Json.marshal (DerivationTaskEvent.fields t)) = .ok t)
    (henv : J.envelope msg.value = .ok env) (hop : env.op = ['c']) (hrow : env.after = some row) :
    kafkaEvent J msg = some (eventOf (taskOf J env row)) := by
  have hroute : routeMessage J msg = writeMessages .tasks msg (taskOf J env row).versionId
      (Json.marshal (taskOf J env row).fields) := by
    rw [routeMessage, henv]
    dsimp only
    rw [hrow]
    exact if_neg fun hne => hne hop
  have hprocess : ∀ key, ∃ next,
      processMessage J ⟨0, 0, key, Json.marshal (taskOf J env row).fields⟩ =
        .call (.processEvent ⟨0, 0, key, Json.marshal (taskOf J env row).fields⟩
          (eventOf (taskOf J env row))) next := by
    intro key
    rw [processMessage, hJ]
    exact ⟨_, rfl⟩
  rw [kafkaEvent, hroute]
  dsimp only [writeMessages, Proc.perform]
  obtain ⟨next, hnext⟩ := hprocess (taskOf J env row).versionId
  rw [hnext]

/-! ## Published events -/

/-- An event is published only with its content hash. -/
def publishing : Contract Cmd Handlers.Answer Unit where
  grows _ _ := True
  may _ c :=
    match c with
    | .publishFileCommitted e => e.contentSha256 ≠ []
    | _ => True
  told _ _ _ := True
  refl _ := trivial
  trans _ _ := trivial

theorem handle_publishes (r : Request) :
    Serves publishing (fun w resp => r.Met publishing w resp) (handle srv r) () := by
  refine handle_serves (fun _ c hc => ?_) (fun _ _ _ _ _ => trivial) (fun _ _ _ _ _ _ => trivial)
    (fun req _ session v number h hnil => ?_) r
  · cases c with
    | publishFileCommitted e => cases hc
    | _ => trivial
  · have hvalid := h.valid
    have hnil : req.contentSha256 = [] := hnil
    rw [CommitRequest.validate, hnil] at hvalid
    split at hvalid
    · cases hvalid
    · cases hvalid

theorem publishing_run (hrun : (State.init d).run srv acts = some s) : Obeys publishing () s :=
  Run.invariant
    (fun hs hstep => hs.does (does_of_step hstep) trivial handle_publishes fun _ _ => trivial)
    (obeys_init d) hrun

/-- **The two paths never agree**: whatever version `handleCommit` publishes, the event that reaches
the workers by Kafka is not the one that the bridge delivers. -/
theorem paths_disagree (J : Codec)
    (hJ : ∀ t, J.task (Json.marshal (DerivationTaskEvent.fields t)) = .ok t)
    {srv : Server} {d : Db} {acts : List Handlers.Act} {s : State}
    (hrun : (State.init d).run srv acts = some s) {q : Process} (hq : q ∈ s.processes)
    {e : FileCommittedEvent}
    {next : Handlers.Answer (.publishFileCommitted e) →
      Proc Cmd Handlers.Answer (Except IngressErr Response)}
    (hcall : q.stage.prog = .call (.publishFileCommitted e) next)
    {bytea : Hash → List Char} {r : VersionRow} {timestamp : Int64} (msg : Message)
    (hmsg : J.envelope msg.value = .ok (versionInserted bytea e.versionId r timestamp))
    (queue : List Event) (eventId createdAt : List Char) {x : Event}
    (hx : publishFileCommitted queue eventId createdAt e = queue ++ [x]) :
    ∃ y, kafkaEvent J msg = some y ∧ ¬ Agrees x y := by
  refine ⟨_, kafkaEvent_eq hJ hmsg rfl rfl, fun hagrees => ?_⟩
  have hkeeps := publishing_run hrun q hq
  rw [hcall] at hkeeps
  have hcontent : e.contentSha256 ≠ [] := (hkeeps () trivial).1
  rw [eq_bridgeEvent hx] at hagrees
  exact hcontent hagrees.contentSha256

/-! ## A committed version -/

/-- The first upload of the file, up to where its event is published. -/
def untilPublished : List Handlers.Act :=
  initiateFirst ++ .receive (.commit 0 commitSeven) :: List.replicate 2 (call 1 5) ++
    List.replicate 15 (.exec 1) ++ .commit 1 :: List.replicate 3 (call 1 5)

/-- The event that the second request is about to publish. -/
def pending (s : State) : Option FileCommittedEvent :=
  (s.processes[1]?).bind fun q =>
    match q.stage.prog with
    | .call (.publishFileCommitted e) _ => some e
    | _ => none

theorem of_pending (h : pending s = some e) :
    ∃ q ∈ s.processes, ∃ next, q.stage.prog = .call (.publishFileCommitted e) next := by
  obtain ⟨q, hq, he⟩ := Option.bind_eq_some_iff.1 h
  refine ⟨q, List.mem_of_getElem? hq, ?_⟩
  split at he
  · next next hprog =>
    cases he
    exact ⟨next, hprog⟩
  · cases he

/-- The change event of that version, and the decoders of a pipeline that reads it. -/
def changeText : List Char :=
  "\x7b\"after\":\x7b\"version_id\":\"00000000-0000-0000-0000-000000000005\",".toList ++
    "\"node_id\":\"00000000-0000-0000-0000-000000000002\",".toList ++
    "\"version_number\":1,\"total_size_bytes\":4,".toList ++
    "\"mime_type\":\"application/octet-stream\",".toList ++
    "\"content_sha256\":\"AAAAAAAAAAAAAAAAAAAAAAAAAAAAAAAAAAAAAAAAAAk=\",".toList ++
    "\"created_by\":\"00000000-0000-0000-0000-000000000001\"\x7d,".toList ++
    "\"op\":\"c\",\"ts_ms\":0\x7d".toList

def changeEnvelope : DebeziumPayloadEnvelope :=
  versionInserted (fun _ => "AAAAAAAAAAAAAAAAAAAAAAAAAAAAAAAAAAAAAAAAAAk=".toList) 5
    ⟨2, 1, 4, 9, 1⟩ 0

def changeCodec : Codec where
  envelope text := if text = changeText then .ok changeEnvelope else .error "unexpected".toList
  task := DerivationTaskEvent.read
  rfc3339 _ := "1970-01-01T00:00:00Z".toList

theorem changeCodec_envelope : changeCodec.envelope changeText = .ok changeEnvelope := by
  simp only [changeCodec, if_true]

/-- The event of version 5 is about to be published. -/
theorem pending_untilPublished :
    ∃ s e, (State.init (Db.seed tenantOne fileTwo ∅)).run oneTenant untilPublished = some s ∧
      pending s = some e ∧ e.versionId = 5 ∧ e.nodeId = some 2 ∧ e.totalSize = 4 := by
  have hrun : ((State.init (Db.seed tenantOne fileTwo ∅)).run oneTenant untilPublished).bind
      (fun s => (pending s).map fun e => (e.versionId, e.nodeId, e.totalSize)) =
      some (5, some 2, 4) := by
    decide +kernel
  obtain ⟨s, hs, he⟩ := Option.bind_eq_some_iff.1 hrun
  obtain ⟨e, he, hversion, hfields⟩ := exists_of_map_eq_pair he
  obtain ⟨hnode, hsize⟩ := Prod.mk.inj hfields
  exact ⟨s, e, hs, he, hversion, hnode, hsize⟩

theorem paths_disagree_untilPublished :
    ∃ s e x y, (State.init (Db.seed tenantOne fileTwo ∅)).run oneTenant untilPublished = some s ∧
      pending s = some e ∧ publishFileCommitted [] [] [] e = [x] ∧
      kafkaEvent changeCodec ⟨0, 0, [], changeText⟩ = some y ∧ ¬ Agrees x y := by
  obtain ⟨s, e, hs, he, hversion, -, -⟩ := pending_untilPublished
  obtain ⟨q, hq, next, hcall⟩ := of_pending he
  have hmsg := changeCodec_envelope
  rw [changeEnvelope, ← hversion] at hmsg
  obtain ⟨y, hy, hne⟩ := paths_disagree changeCodec DerivationTaskEvent.read_marshal hs hq hcall
    ⟨0, 0, [], changeText⟩ hmsg [] [] [] rfl
  exact ⟨s, e, _, y, hs, he, rfl, hy, hne⟩

/-- **The workers see two events**: the bridge delivers the node and the size of version 5, Kafka an
event without a node and of size zero. -/
theorem version_without_node :
    ∃ s e x y, (State.init (Db.seed tenantOne fileTwo ∅)).run oneTenant untilPublished = some s ∧
      pending s = some e ∧ publishFileCommitted [] [] [] e = [x] ∧
      kafkaEvent changeCodec ⟨0, 0, [], changeText⟩ = some y ∧
      x.nodeId = Uuid.text 2 ∧ y.nodeId = [] ∧ x.totalSize = 4 ∧ y.totalSize = 0 := by
  obtain ⟨s, e, hs, he, -, hnode, hsize⟩ := pending_untilPublished
  refine ⟨s, e, bridgeEvent [] [] e, _, hs, he, rfl,
    kafkaEvent_eq DerivationTaskEvent.read_marshal changeCodec_envelope rfl rfl, ?_, rfl, hsize,
      rfl⟩
  rw [bridgeEvent, hnode]
  rfl

end Aegis.Cdc
