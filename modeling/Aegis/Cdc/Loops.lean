import Aegis.Lib.Consume
import Aegis.Lib.Json
import Aegis.Lib.Run

/-!
# The router and the derivation consumer

`Router.Start` with `routeMessage` (internal/cdc/router.go) turns the change events of the database
into derivation tasks; `DerivationConsumer.Start` with `processMessage` and `sendToDLQ`
(internal/events/consumer.go) hands the tasks to the worker pool. Both are loops that fetch a
message, handle it and commit its offset, whatever came of handling it.

The decoding of JSON is a parameter, and so is the RFC 3339 text of a time; the encoding is that of
`json.Marshal`, which does not fail on records of strings and integers. What the brokers and the
pool do with a call is decided by an outcome: a write can fail with or without its effect.
-/

namespace Aegis.Cdc

/-! ## Records -/

/-- `derivation.ChunkDetail`. -/
structure ChunkDetail where
  index : Int
  blockHash : List Char
  sizeBytes : Int
  offsetBytes : Int
deriving DecidableEq

/-- `derivation.Event`, with the zero values of its fields. -/
structure Event where
  eventId : List Char := []
  eventType : List Char := []
  versionId : List Char := []
  nodeId : List Char := []
  tenantId : List Char := []
  totalSize : Int := 0
  mimeType : List Char := []
  contentSha256 : List Char := []
  createdAt : List Char := []
  chunks : List ChunkDetail := []
deriving DecidableEq

/-- `derivation.WorkerStatus`. -/
inductive WorkerStatus
  | success
  | failed
  | skipped
deriving DecidableEq

/-- What the consumer reads of a `derivation.ProcessingResult`. -/
structure ProcessingResult where
  workerName : List Char
  status : WorkerStatus
  error : List Char := []
deriving DecidableEq

/-- A decoded `interface{}`: a string, or anything else. -/
inductive Value
  | str (text : List Char)
  | other

/-- What the router reads of a `DebeziumPayloadEnvelope`. -/
structure DebeziumPayloadEnvelope where
  after : Option (Table String Value)
  op : List Char
  timestamp : Int64

/-- `events.DerivationTaskEvent`. -/
structure DerivationTaskEvent where
  eventId : List Char
  tenantId : List Char
  versionId : List Char
  nodeId : List Char
  blockHash : List Char
  mimeType : List Char
  sizeBytes : Int64 := 0
  timestamp : List Char
deriving DecidableEq

/-- The fields of a task, under the names of their tags. -/
def DerivationTaskEvent.fields (t : DerivationTaskEvent) : List (List Char × Json.Scalar) :=
  [("event_id".toList, .str t.eventId), ("tenant_id".toList, .str t.tenantId),
    ("version_id".toList, .str t.versionId), ("node_id".toList, .str t.nodeId),
    ("block_hash".toList, .str t.blockHash), ("mime_type".toList, .str t.mimeType),
    ("size_bytes".toList, .int t.sizeBytes), ("timestamp".toList, .str t.timestamp)]

/-- `json.Marshal` of a record of strings and integers. -/
def jsonMarshal (fields : List (List Char × Json.Scalar)) : Except (List Char) (List Char) :=
  .ok (Json.marshal fields)

/-- A task from the text that `json.Marshal` writes for it. -/
def DerivationTaskEvent.read (text : List Char) : Except (List Char) DerivationTaskEvent :=
  match Json.unmarshal [("event_id".toList, false), ("tenant_id".toList, false),
    ("version_id".toList, false), ("node_id".toList, false), ("block_hash".toList, false),
    ("mime_type".toList, false), ("size_bytes".toList, true), ("timestamp".toList, false)] text with
  | some [.str eventId, .str tenantId, .str versionId, .str nodeId, .str blockHash, .str mimeType,
      .int sizeBytes, .str timestamp] =>
    .ok { eventId, tenantId, versionId, nodeId, blockHash, mimeType, sizeBytes, timestamp }
  | _ => .error "invalid task".toList

theorem DerivationTaskEvent.read_marshal (t : DerivationTaskEvent) :
    read (Json.marshal t.fields) = .ok t := by
  have h := Json.unmarshal_marshal t.fields
  simp only [fields, List.map_cons, List.map_nil, Json.Scalar.isInt] at h
  rw [read, fields, h]

/-- `kafka.Message`: where it stands in its topic, its key and its value. -/
structure Message where
  partition : Nat
  offset : Nat
  key : List Char
  value : List Char

/-- `json.Unmarshal` into the two records, and the RFC 3339 text of a time, in nanoseconds. -/
structure Codec where
  envelope : List Char → Except (List Char) DebeziumPayloadEnvelope
  task : List Char → Except (List Char) DerivationTaskEvent
  rfc3339 : Int → List Char

/-! ## Programs -/

inductive Topic
  | tasks
  | dlq
deriving DecidableEq

/-- The calls of the loops. The message that is being handled comes along, so that the record of a
call tells what it was made for. -/
inductive Command
  | writeMessages (topic : Topic) (cause : Message) (key value : List Char)
  | processEvent (cause : Message) (event : Event)
  | now

/-- A write returns an error or nil, the pool its results, the clock its time. -/
def Answer : Command → Type
  | .writeMessages .. => Option (List Char)
  | .processEvent .. => List ProcessingResult
  | .now => Int

abbrev Loop := Proc Command Answer

/-- `Writer.WriteMessages`. -/
def writeMessages (topic : Topic) (cause : Message) (key value : List Char) :
    Loop (Option (List Char)) :=
  Proc.perform (Command.writeMessages topic cause key value)

/-- `WorkerPool.ProcessEvent`. -/
def processEvent (cause : Message) (event : Event) : Loop (List ProcessingResult) :=
  Proc.perform (Command.processEvent cause event)

/-- `time.Now`. -/
def now : Loop Int := Proc.perform Command.now

/-- A type assertion to a string, empty where it fails. -/
def asString (row : Table String Value) (column : String) : List Char :=
  match row.lookup column with
  | some (.str text) => text
  | _ => []

section
variable (J : Codec)

/-- The tenant of a row: its `tenant_id`, its `created_by`, or the first tenant. -/
def tenantOf (row : Table String Value) : List Char :=
  let tenantId := asString row "tenant_id"
  let tenantId := if tenantId = [] then asString row "created_by" else tenantId
  if tenantId = [] then "00000000-0000-0000-0000-000000000001".toList else tenantId

/-- The task for an inserted row. -/
def taskOf (env : DebeziumPayloadEnvelope) (row : Table String Value) : DerivationTaskEvent where
  eventId := "cdc-".toList ++ formatInt env.timestamp.toInt
  tenantId := tenantOf row
  versionId := asString row "version_id"
  nodeId := asString row "node_id"
  blockHash := asString row "content_sha256"
  mimeType := asString row "mime_type"
  timestamp := J.rfc3339 (env.timestamp.toInt * 1000000)

/-- `routeMessage`. -/
def routeMessage (msg : Message) : Loop (Option (List Char)) :=
  match J.envelope msg.value with
  | .error e => return some ("unmarshal debezium envelope: ".toList ++ e)
  | .ok env =>
    match env.after with
    | none => return none
    | some row =>
      if env.op ≠ ['c'] then return none
      else
        match jsonMarshal (taskOf J env row).fields with
        | .error e => return some ("marshal task: ".toList ++ e)
        | .ok payload => writeMessages .tasks msg (taskOf J env row).versionId payload

/-- The body of the loop of `Router.Start`, from the fetch to the commit: the error is logged. -/
def route (msg : Message) : Loop Unit := do
  let _ ← routeMessage J msg
  return ()

/-- The event of a task. -/
def eventOf (task : DerivationTaskEvent) : Event where
  versionId := task.versionId
  tenantId := task.tenantId
  mimeType := task.mimeType

/-- `processMessage`. -/
def processMessage (msg : Message) : Loop (Option (List Char)) :=
  match J.task msg.value with
  | .error e => return some ("unmarshal error: ".toList ++ e)
  | .ok task => do
    let results ← processEvent msg (eventOf task)
    match results.find? fun res => res.status = .failed with
    | some res =>
      return some ("worker ".toList ++ res.workerName ++ " failed: ".toList ++ res.error)
    | none => return none

/-- The letter for a task that failed. -/
def deadLetter (msg : Message) (reason : List Char) (failedAt : Int) :
    List (List Char × Json.Scalar) :=
  [("original_payload".toList, .str msg.value), ("error_reason".toList, .str reason),
    ("failed_at".toList, .str (J.rfc3339 failedAt))]

/-- `sendToDLQ`. -/
def sendToDLQ (msg : Message) (reason : List Char) : Loop (Option (List Char)) := do
  let failedAt ← now
  match jsonMarshal (deadLetter J msg reason failedAt) with
  | .error _ => writeMessages .dlq msg msg.key []
  | .ok val => writeMessages .dlq msg msg.key val

/-- The body of the loop of `DerivationConsumer.Start`, from the fetch to the commit: a task that
fails goes to the dead letters, and an error of that is dropped. -/
def consume (msg : Message) : Loop Unit := do
  match ← processMessage J msg with
  | none => return ()
  | some reason =>
    let _ ← sendToDLQ J msg reason
    return ()

end

/-! ## The pipeline -/

/-- A record of a topic, and the message it was written for, if one of the loops wrote it. -/
structure Record where
  key : List Char
  value : List Char
  cause : Option (Nat × Nat) := none

/-- A call of the pool: the task it was made for, the event and the results. -/
structure Processing where
  cause : Nat × Nat
  event : Event
  results : List ProcessingResult

/-- The partitions of the change events and of the tasks, the dead letters, and the calls of the
pool. -/
structure World where
  input : Nat → List Record
  tasks : Nat → List Record
  dlq : List Record
  processed : List Processing

/-- What comes of a call: the error of a write, the partition it is appended to, if it is, the
results of the pool, the time. -/
structure Outcome where
  err : Option (List Char) := none
  partition : Option Nat := none
  results : List ProcessingResult := []
  now : Int := 0

/-- Append a record to a partition. -/
def append (log : Nat → List Record) (p : Nat) (r : Record) : Nat → List Record :=
  Function.update log p (log p ++ [r])

def Message.position (msg : Message) : Nat × Nat := (msg.partition, msg.offset)

/-- What the world does with a call. -/
def respond (e : Outcome) : (c : Command) → World → Answer c × World
  | .writeMessages .tasks msg key value, w =>
    (e.err, match e.partition with
      | some p => { w with tasks := append w.tasks p ⟨key, value, some msg.position⟩ }
      | none => w)
  | .writeMessages .dlq msg key value, w =>
    (e.err, match e.partition with
      | some _ => { w with dlq := w.dlq ++ [⟨key, value, some msg.position⟩] }
      | none => w)
  | .processEvent msg event, w =>
    (e.results, { w with processed := w.processed ++ [⟨msg.position, event, e.results⟩] })
  | .now, w => (e.now, w)

/-- The messages of a partition. -/
def messages (log : Nat → List Record) (p : Nat) : List Message :=
  (log p).mapIdx fun o r => ⟨p, o, r.key, r.value⟩

/-- The group of the routers. -/
def routers (J : Codec) : Consume.Consumer Command Answer World Message Outcome :=
  ⟨fun w => messages w.input, route J, respond⟩

/-- The group of the derivation consumers. -/
def consumers (J : Codec) : Consume.Consumer Command Answer World Message Outcome :=
  ⟨fun w => messages w.tasks, consume J, respond⟩

/-- The topics, and the two groups. -/
structure Pipeline where
  world : World
  routers : Consume.Group Command Answer Message
  consumers : Consume.Group Command Answer Message

/-- A change event or a task is published by someone else, or a loop goes on. -/
inductive Act
  | change (p : Nat) (key value : List Char)
  | task (p : Nat) (key value : List Char)
  | router (a : Consume.Action Outcome)
  | consumer (a : Consume.Action Outcome)

/-- Routers and consumers that have read nothing yet. -/
def Pipeline.init (w : World) (m n : Nat) : Pipeline :=
  ⟨w, ⟨∅, List.replicate m ⟨∅, none⟩⟩, ⟨∅, List.replicate n ⟨∅, none⟩⟩⟩

/-- One step, if it is possible. -/
def Pipeline.step (J : Codec) (s : Pipeline) : Act → Option Pipeline
  | .change p key value =>
    some { s with world.input := append s.world.input p { key, value } }
  | .task p key value =>
    some { s with world.tasks := append s.world.tasks p { key, value } }
  | .router a =>
    ((Cdc.routers J).step s.world s.routers a).map fun (w, g) => { s with world := w, routers := g }
  | .consumer a =>
    ((Cdc.consumers J).step s.world s.consumers a).map fun (w, g) =>
      { s with world := w, consumers := g }

end Aegis.Cdc
