import Aegis.Lib.Json
import Aegis.Lib.Run
import Aegis.Lib.Table
import Aegis.Lib.Utf8
import Mathlib

/-!
# The idempotency middleware (`internal/ingress/idempotency.go`)

`IdempotencyEngine.Middleware` lets one request of those with the same Redis key run the wrapped
handler: the one whose SETNX sets the key. It records what the handler writes and stores it under
the key as JSON. The others read the key, and answer with what is stored there or, as long as that
is `IN_PROGRESS`, with a conflict. Requests in flight take turns at their Redis commands and at
their handlers in any order.

The writer is that of `net/http`: a status is written once, 200 if none has been given before the
body; informational statuses are sent and not kept; some statuses have no body; a status that is not
one panics. The recorder passes everything on and keeps the status and the body as they were given.
So a recorded response is replayed by giving both to a new writer, and the outcome is the same if
the handler gave one status at most, and first (`replay_record`).

The key is put together from the values of two headers, with a colon between them that may also be
part of either, and a default for the first. The second part is about requests that share a key.
-/

namespace Aegis.Ingress.Idempotency

/-! ## Requests -/

/-- What a request is told apart by. A header that is not there is `none`. -/
structure Request where
  method : List Char
  path : List Char
  xTenantID : Option (List Char)
  idempotencyKey : Option (List Char)
  deriving DecidableEq

/-- The Redis key of a request; a request without an `Idempotency-Key` has none. -/
def Request.redisKey (r : Request) : Option (List Char) :=
  let idempotencyKey := r.idempotencyKey.getD []
  if idempotencyKey = [] then none
  else
    let tenantID := r.xTenantID.getD []
    let tenantID := if tenantID = [] then "global".toList else tenantID
    some ("aegis:idempotency:".toList ++ (tenantID ++ ':' :: idempotencyKey))

/-! ## Writers -/

/-- The status and the body of a response. -/
structure Response where
  status : Int64
  body : ByteArray
  deriving DecidableEq

/-- The writer of `net/http`: the status once it is written, and the body. -/
structure Writer where
  status : Option Int64
  body : ByteArray

/-- A handler's calls of its writer. -/
inductive Output
  | writeHeader (code : Int64)
  | write (b : ByteArray)

namespace Writer

def new : Writer := ⟨none, .empty⟩

/-- `WriteHeader`; `none` is a panic. -/
def writeHeader (w : Writer) (code : Int64) : Option Writer :=
  if w.status.isSome then some w
  else if code.toInt < 100 ∨ 999 < code.toInt then none
  else if 100 ≤ code.toInt ∧ code.toInt ≤ 199 ∧ code.toInt ≠ 101 then some w
  else some { w with status := some code }

/-- `bodyAllowedForStatus`. -/
def bodyAllowed (status : Int64) : Bool :=
  !(decide (100 ≤ status.toInt ∧ status.toInt ≤ 199) || status.toInt == 204 || status.toInt == 304)

/-- `Write`. -/
def write (w : Writer) (b : ByteArray) : Writer :=
  let status := w.status.getD 200
  ⟨some status, if bodyAllowed status then w.body ++ b else w.body⟩

/-- The response when the handler has returned. -/
def finish (w : Writer) : Response := ⟨w.status.getD 200, w.body⟩

def emit (w : Writer) : Output → Option Writer
  | .writeHeader code => w.writeHeader code
  | .write b => some (w.write b)

end Writer

/-- `responseRecorder`. -/
structure Recorder where
  writer : Writer
  body : ByteArray
  statusCode : Int64

namespace Recorder

def new : Recorder := ⟨.new, .empty, 200⟩

def emit (r : Recorder) : Output → Option Recorder
  | .writeHeader code =>
    (r.writer.writeHeader code).map fun w => { r with writer := w, statusCode := code }
  | .write b => some { r with writer := r.writer.write b, body := r.body ++ b }

end Recorder

/-! ## Stored responses -/

structure CachedResponse where
  statusCode : Int64
  body : ByteArray

namespace CachedResponse

def ofRecorder (r : Recorder) : CachedResponse := ⟨r.statusCode, r.body⟩

/-- `json.Marshal`: the body is read as text. -/
def marshal (c : CachedResponse) : List Char :=
  Json.marshal [("status_code".toList, .int c.statusCode),
    ("body".toList, .str (Utf8.runes c.body))]

/-- `json.Unmarshal` of what the middleware has stored. -/
def unmarshal (text : List Char) : Option CachedResponse :=
  match Json.unmarshal [("status_code".toList, true), ("body".toList, false)] text with
  | some [.int statusCode, .str body] => some ⟨statusCode, (String.ofList body).toByteArray⟩
  | _ => none

/-- The answer with a stored response; `none` is a panic. -/
def replay (c : CachedResponse) : Option Response :=
  (Writer.new.writeHeader c.statusCode).map fun w => (w.write c.body).finish

end CachedResponse

/-- The value of a key whose request is being handled. -/
def inProgress : List Char := "IN_PROGRESS".toList

/-- `http.Error` with the detail of the conflict, which ends the line. -/
def conflictResponse : Response :=
  ⟨409, ("\x7b\"error\":\"idempotency_conflict\",\"detail\":\"Request in progress\"\x7d\n").toUTF8⟩

/-! ## Requests in flight -/

/-- How far a request has come. `direct` runs the handler without a record. -/
inductive Phase
  | arrived
  | refused
  | running
  | direct
  | recorded (r : Recorder)
  | served (resp : Response)
  | replayed (writer : Nat) (resp : Response)
  | conflict
  | panicked

/-- The response that an execution of the handler has produced. -/
def Phase.produced : Phase → Option Response
  | .recorded r => some r.writer.finish
  | .served resp => some resp
  | _ => none

/-- The response of a request that has been answered. -/
def Phase.response : Phase → Option Response
  | .served resp => some resp
  | .replayed _ resp => some resp
  | .conflict => some conflictResponse
  | _ => none

/-- A request and how far it has come. -/
structure Ticket where
  request : Request
  phase : Phase

/-- A value in Redis, and the request that has written it (which a reader cannot see). -/
structure Stored where
  text : List Char
  writer : Nat

/-- How a Redis command that writes goes: an answer that is lost leaves its effect. -/
inductive Outcome
  | ok
  | lost
  | failed
  deriving DecidableEq

/-- The requests, what Redis holds under their keys, and the handler's calls so far. -/
structure State where
  redis : Table (List Char) Stored
  requests : List Ticket
  executions : List (Nat × Request)

def State.init : State := ⟨∅, [], []⟩

/-- The steps of requests: SETNX, GET, the handler (which makes its calls, and returns or panics),
and SET. Keys expire at any time. -/
inductive Act
  | arrive (r : Request)
  | fence (i : Nat) (outcome : Outcome)
  | lookup (i : Nat) (ok : Bool)
  | handle (i : Nat) (outputs : List Output) (returns : Bool)
  | publish (i : Nat) (outcome : Outcome)
  | expire (key : List Char)

namespace State

def resume (s : State) (i : Nat) (ph : Phase) : State :=
  { s with requests := s.requests.modify i fun q => { q with phase := ph } }

/-- A request begins to run the handler. -/
def execute (s : State) (i : Nat) (r : Request) (ph : Phase) : State :=
  { s.resume i ph with executions := s.executions ++ [(i, r)] }

/-- SETNX of `IN_PROGRESS`. -/
def setNX (redis : Table (List Char) Stored) (key : List Char) (i : Nat) (outcome : Outcome) :
    Table (List Char) Stored :=
  if outcome = .failed ∨ (redis.lookup key).isSome then redis
  else redis.insert key ⟨inProgress, i⟩

/-- SET of a response. -/
def set (redis : Table (List Char) Stored) (key : List Char) (i : Nat) (c : CachedResponse)
    (outcome : Outcome) : Table (List Char) Stored :=
  if outcome = .failed then redis else redis.insert key ⟨c.marshal, i⟩

/-- What a request answers that has not set its key. -/
def answer (s : State) (key : List Char) (ok : Bool) : Phase :=
  match ok, s.redis.lookup key with
  | true, some e =>
    if e.text = inProgress then .conflict
    else
      match CachedResponse.unmarshal e.text with
      | some cached =>
        match cached.replay with
        | some resp => .replayed e.writer resp
        | none => .panicked
      | none => .conflict
  | _, _ => .conflict

/-- The handler on a recorder. -/
def recording (outputs : List Output) (returns : Bool) : Phase :=
  match outputs.foldlM Recorder.emit Recorder.new, returns with
  | some r, true => .recorded r
  | _, _ => .panicked

/-- The handler on the writer itself. -/
def passing (outputs : List Output) (returns : Bool) : Phase :=
  match outputs.foldlM Writer.emit Writer.new, returns with
  | some w, true => .served w.finish
  | _, _ => .panicked

/-- One step. -/
def step (s : State) : Act → Option State
  | .arrive r => some { s with requests := s.requests ++ [⟨r, .arrived⟩] }
  | .fence i outcome => s.requests[i]?.bind fun q =>
    match q.phase with
    | .arrived =>
      match q.request.redisKey with
      | none => some (s.execute i q.request .direct)
      | some key =>
        if outcome = .ok then
          if (s.redis.lookup key).isSome then some (s.resume i .refused)
          else
            some ({ s with redis := setNX s.redis key i outcome }.execute i q.request .running)
        else some ({ s with redis := setNX s.redis key i outcome }.execute i q.request .direct)
    | _ => none
  | .lookup i ok => s.requests[i]?.bind fun q =>
    match q.phase, q.request.redisKey with
    | .refused, some key => some (s.resume i (s.answer key ok))
    | _, _ => none
  | .handle i outputs returns => s.requests[i]?.bind fun q =>
    match q.phase with
    | .running => some (s.resume i (recording outputs returns))
    | .direct => some (s.resume i (passing outputs returns))
    | _ => none
  | .publish i outcome => s.requests[i]?.bind fun q =>
    match q.phase, q.request.redisKey with
    | .recorded r, some key =>
      some ({ s with redis := set s.redis key i (.ofRecorder r) outcome }.resume i
        (.served r.writer.finish))
    | _, _ => none
  | .expire key => some { s with redis := s.redis.erase key }

end State

/-! ## Replaying what was recorded -/

/-- The bytes that a handler writes. -/
def written : List Output → ByteArray
  | [] => .empty
  | .writeHeader _ :: outputs => written outputs
  | .write b :: outputs => b ++ written outputs

def Output.isWrite : Output → Bool
  | .writeHeader _ => false
  | .write _ => true

/-- The handler gives a status at most once, before it writes, and writes text. -/
structure Behaved (outputs : List Output) : Prop where
  statusFirst : ∀ o ∈ outputs.tail, o.isWrite = true
  isText : (written outputs).IsValidUTF8

theorem Writer.write_write (w : Writer) (b b' : ByteArray) :
    (w.write b).write b' = w.write (b ++ b') := by
  simp only [Writer.write, Option.getD_some]
  split
  · rw [ByteArray.append_assoc]
  · rfl

variable {outputs : List Output}

/-- Writes are recorded, and amount to one. -/
theorem Recorder.foldlM_writes (h : ∀ o ∈ outputs, o.isWrite = true) (r : Recorder) :
    ∃ w : Writer, outputs.foldlM Recorder.emit r =
      some ⟨w, r.body ++ written outputs, r.statusCode⟩ ∧
      w.finish = (r.writer.write (written outputs)).finish := by
  induction outputs generalizing r with
  | nil =>
    refine ⟨r.writer, ?_, by simp [Writer.write, Writer.finish, written]⟩
    simp [written]
  | cons o outputs ih =>
    cases o with
    | writeHeader code => exact absurd (h _ List.mem_cons_self) Bool.false_ne_true
    | write b =>
      obtain ⟨w, hw, hfinish⟩ := ih (fun o ho => h o (List.mem_cons_of_mem _ ho))
        ⟨r.writer.write b, r.body ++ b, r.statusCode⟩
      refine ⟨w, ?_, ?_⟩
      · rw [List.foldlM_cons, Recorder.emit, Option.bind_eq_bind, Option.bind_some, hw,
          ByteArray.append_assoc, written]
      · rw [hfinish, Writer.write_write, written]

/-- A recorder whose status leads a new writer to where its own is, and what is written to it. -/
theorem replay_of_writes (h : ∀ o ∈ outputs, o.isWrite = true) {r₀ r : Recorder}
    (hbody : r₀.body = .empty)
    (h₀ : ∀ b, (CachedResponse.mk r₀.statusCode b).replay = some (r₀.writer.write b).finish)
    (hr : outputs.foldlM Recorder.emit r₀ = some r) :
    (CachedResponse.ofRecorder r).replay = some r.writer.finish ∧ r.body = written outputs := by
  obtain ⟨w, hw, hfinish⟩ := Recorder.foldlM_writes h r₀
  rw [hbody, ByteArray.empty_append] at hw
  cases hw.symm.trans hr
  exact ⟨(h₀ _).trans (congrArg some hfinish.symm), rfl⟩

/-- **The recorded status and body replay the response**: given to a new writer they lead to what
the handler's writer sent. -/
theorem replay_record (h : ∀ o ∈ outputs.tail, o.isWrite = true) {r : Recorder}
    (hr : outputs.foldlM Recorder.emit .new = some r) :
    (CachedResponse.ofRecorder r).replay = some r.writer.finish ∧ r.body = written outputs := by
  have hnew : ∀ b, (CachedResponse.mk Recorder.new.statusCode b).replay =
      some (Recorder.new.writer.write b).finish := fun _ => rfl
  match outputs with
  | [] => exact replay_of_writes (fun _ ho => absurd ho List.not_mem_nil) rfl hnew hr
  | .write b :: outputs =>
    refine replay_of_writes (fun o ho => ?_) rfl hnew hr
    rcases List.mem_cons.1 ho with rfl | ho
    · rfl
    · exact h o ho
  | .writeHeader code :: outputs =>
    rw [List.foldlM_cons, Recorder.emit, Option.bind_eq_bind, Option.bind_eq_some_iff] at hr
    obtain ⟨r₀, hr₀, hr⟩ := hr
    obtain ⟨w, hw, rfl⟩ := Option.map_eq_some_iff.1 hr₀
    refine replay_of_writes h rfl (fun b => ?_) hr
    have hw' : Writer.new.writeHeader code = some w := hw
    rw [CachedResponse.replay, hw', Option.map_some]

/-- What is stored reads back, if the body is text. -/
theorem unmarshal_marshal (h : c.body.IsValidUTF8) :
    CachedResponse.unmarshal c.marshal = some c := by
  obtain ⟨text, htext⟩ := h
  have hread := Json.unmarshal_marshal
    [("status_code".toList, .int c.statusCode), ("body".toList, .str (Utf8.runes c.body))]
  simp only [List.map_cons, List.map_nil, Json.Scalar.isInt] at hread
  rw [CachedResponse.unmarshal, CachedResponse.marshal, hread, htext, Utf8.runes_utf8Encode]
  dsimp only
  rw [String.toByteArray_ofList, ← htext]

theorem marshal_ne_inProgress (c : CachedResponse) : c.marshal ≠ inProgress := by
  intro h
  have hhead := congrArg List.head? h
  rw [CachedResponse.marshal, Json.marshal, List.head?_cons,
    show inProgress.head? = some 'I' from by decide] at hhead
  cases hhead

/-! ## What a step does -/

namespace State

/-- Everything a step can do. -/
inductive Does (s : State) : Act → State → Prop
  | arrive (r : Request) : Does s (.arrive r) { s with requests := s.requests ++ [⟨r, .arrived⟩] }
  | direct {i : Nat} {q : Ticket} {outcome : Outcome} : s.requests[i]? = some q →
    q.phase = .arrived → q.request.redisKey = none →
    Does s (.fence i outcome) (s.execute i q.request .direct)
  | failOpen {i : Nat} {q : Ticket} {key : List Char} {outcome : Outcome} :
    s.requests[i]? = some q → q.phase = .arrived → q.request.redisKey = some key → outcome ≠ .ok →
    Does s (.fence i outcome)
      ({ s with redis := setNX s.redis key i outcome }.execute i q.request .direct)
  | refuse {i : Nat} {q : Ticket} {key : List Char} {e : Stored} : s.requests[i]? = some q →
    q.phase = .arrived → q.request.redisKey = some key → s.redis.lookup key = some e →
    Does s (.fence i .ok) (s.resume i .refused)
  | own {i : Nat} {q : Ticket} {key : List Char} : s.requests[i]? = some q →
    q.phase = .arrived → q.request.redisKey = some key → s.redis.lookup key = none →
    Does s (.fence i .ok)
      ({ s with redis := s.redis.insert key ⟨inProgress, i⟩ }.execute i q.request .running)
  | answer {i : Nat} {q : Ticket} {key : List Char} {ok : Bool} : s.requests[i]? = some q →
    q.phase = .refused → q.request.redisKey = some key →
    Does s (.lookup i ok) (s.resume i (s.answer key ok))
  | record {i : Nat} {q : Ticket} {outputs : List Output} {returns : Bool} :
    s.requests[i]? = some q → q.phase = .running →
    Does s (.handle i outputs returns) (s.resume i (recording outputs returns))
  | pass {i : Nat} {q : Ticket} {outputs : List Output} {returns : Bool} :
    s.requests[i]? = some q → q.phase = .direct →
    Does s (.handle i outputs returns) (s.resume i (passing outputs returns))
  | publish {i : Nat} {q : Ticket} {key : List Char} {r : Recorder} {outcome : Outcome} :
    s.requests[i]? = some q → q.phase = .recorded r → q.request.redisKey = some key →
    Does s (.publish i outcome)
      ({ s with redis := set s.redis key i (.ofRecorder r) outcome }.resume i
        (.served r.writer.finish))
  | expire (key : List Char) : Does s (.expire key) { s with redis := s.redis.erase key }

variable {a : Act} {i j : Nat} {ph : Phase} {s s' : State} {q' : Ticket}

theorem does_of_step (h : s.step a = some s') : Does s a s' := by
  cases a with
  | arrive r =>
    cases h
    exact .arrive r
  | fence i outcome =>
    rw [step, Option.bind_eq_some_iff] at h
    obtain ⟨q, hq, h⟩ := h
    split at h
    · next hph =>
      split at h
      · next hkey =>
        cases h
        exact .direct hq hph hkey
      · next key hkey =>
        split at h
        · next hok =>
          subst hok
          split at h
          · next hsome =>
            obtain ⟨e, he⟩ := Option.isSome_iff_exists.1 hsome
            cases h
            exact .refuse hq hph hkey he
          · next hnone =>
            rw [Bool.not_eq_true, Option.isSome_eq_false_iff, Option.isNone_iff_eq_none] at hnone
            cases h
            rw [setNX, if_neg (by simp [hnone])]
            exact .own hq hph hkey hnone
        · next hne =>
          cases h
          exact .failOpen hq hph hkey hne
    · cases h
  | lookup i ok =>
    rw [step, Option.bind_eq_some_iff] at h
    obtain ⟨q, hq, h⟩ := h
    split at h
    · next hph hkey =>
      cases h
      exact .answer hq hph hkey
    · cases h
  | handle i outputs returns =>
    rw [step, Option.bind_eq_some_iff] at h
    obtain ⟨q, hq, h⟩ := h
    split at h
    · next hph =>
      cases h
      exact .record hq hph
    · next hph =>
      cases h
      exact .pass hq hph
    · cases h
  | publish i outcome =>
    rw [step, Option.bind_eq_some_iff] at h
    obtain ⟨q, hq, h⟩ := h
    split at h
    · next hph hkey =>
      cases h
      exact .publish hq hph hkey
    · cases h
  | expire key =>
    cases h
    exact .expire key

theorem getElem?_resume (s : State) (i : Nat) (ph : Phase) (j : Nat) :
    (s.resume i ph).requests[j]? =
      s.requests[j]?.map fun q => if i = j then { q with phase := ph } else q := by
  rw [resume, List.getElem?_modify]
  split <;> rfl

/-- A ticket after one has gone on: it is the one that did, or it was there. -/
theorem ticket_of_resume (h : (s.resume i ph).requests[j]? = some q') :
    ∃ q, s.requests[j]? = some q ∧
      q.request = q'.request ∧ (i = j ∧ q'.phase = ph ∨ q' = q) := by
  rw [getElem?_resume] at h
  obtain ⟨q, hq, rfl⟩ := Option.map_eq_some_iff.1 h
  refine ⟨q, hq, ?_⟩
  split
  · next hij => exact ⟨rfl, .inl ⟨hij, rfl⟩⟩
  · exact ⟨rfl, .inr rfl⟩

/-- The tickets after an arrival. -/
theorem ticket_of_arrive (h : (s.requests ++ [(⟨r, .arrived⟩ : Ticket)])[j]? = some q') :
    s.requests[j]? = some q' ∨ j = s.requests.length ∧ q' = ⟨r, .arrived⟩ := by
  rw [List.getElem?_append] at h
  split at h
  · exact .inl h
  · next hj =>
    obtain ⟨hlt, rfl⟩ := List.getElem?_eq_some_iff.1 h
    rw [List.length_singleton] at hlt
    refine .inr ⟨by omega, ?_⟩
    rw [List.getElem_singleton]

theorem ticket_kept (h : Does s a s') (hq : s.requests[i]? = some q) :
    ∃ q', s'.requests[i]? = some q' ∧ q'.request = q.request := by
  cases h with
  | arrive r =>
    exact ⟨q, (List.getElem?_append_left (List.getElem?_eq_some_iff.1 hq).1).trans hq, rfl⟩
  | expire key => exact ⟨q, hq, rfl⟩
  | direct | failOpen | refuse | own | answer | record | pass | publish =>
    refine ⟨_, (getElem?_resume s _ _ i).trans (congrArg _ hq), ?_⟩
    split <;> rfl

/-- A ticket after a step: its request was there, or has just arrived. -/
theorem ticket_of_does (h : Does s a s') (hq' : s'.requests[i]? = some q') :
    (∃ q, s.requests[i]? = some q ∧ q.request = q'.request) ∨ a = .arrive q'.request := by
  cases h with
  | arrive r =>
    rcases ticket_of_arrive hq' with hold | ⟨-, rfl⟩
    · exact .inl ⟨q', hold, rfl⟩
    · exact .inr rfl
  | expire key => exact .inl ⟨q', hq', rfl⟩
  | direct | failOpen | refuse | own | answer | record | pass | publish =>
    obtain ⟨q, hq, hreq, -⟩ := ticket_of_resume (s := s) hq'
    exact .inl ⟨q, hq, hreq⟩

/-! ## Who is served what -/

variable {e : Stored} {key : List Char}

/-- An answer from Redis is what another request has written under the key. -/
theorem writer_of_answer (h : s.answer key ok = .replayed i resp) :
    ∃ e, s.redis.lookup key = some e ∧ e.writer = i := by
  unfold answer at h
  split at h
  · next e he =>
    split at h
    · cases h
    · split at h
      · split at h
        · cases h
          exact ⟨e, he, rfl⟩
        · cases h
      · cases h
  · cases h

/-- A value after a step was there, or is that of a request under its own key. -/
theorem stored_of_does (h : Does s a s') (he : s'.redis.lookup key = some e) :
    s.redis.lookup key = some e ∨
      ∃ q, s.requests[e.writer]? = some q ∧ q.request.redisKey = some key := by
  have hinsert : ∀ {i : Nat} {q : Ticket} {key' : List Char} {text : List Char},
      s.requests[i]? = some q → q.request.redisKey = some key' →
      (s.redis.insert key' ⟨text, i⟩).lookup key = some e → s.redis.lookup key = some e ∨
        ∃ q, s.requests[e.writer]? = some q ∧ q.request.redisKey = some key := by
    intro i q key' text hq hkey he
    rw [Table.lookup_insert_eq] at he
    split at he
    · next hsame =>
      cases he
      exact .inr ⟨q, hq, hkey.trans (congrArg some hsame.symm)⟩
    · exact .inl he
  cases h with
  | arrive | direct | refuse | answer | record | pass => exact .inl he
  | @failOpen i q key' outcome hq hph hkey hne =>
    have he' : (setNX s.redis key' i outcome).lookup key = some e := he
    unfold setNX at he'
    split at he'
    · exact .inl he'
    · exact hinsert hq hkey he'
  | own hq hph hkey hnone => exact hinsert hq hkey he
  | @publish i q key' r outcome hq hph hkey =>
    have he' : (State.set s.redis key' i (.ofRecorder r) outcome).lookup key = some e := he
    unfold State.set at he'
    split at he'
    · exact .inl he'
    · exact hinsert hq hkey he'
  | expire key' =>
    rw [Table.lookup_erase_eq] at he
    split at he
    · cases he
    · exact .inl he

/-- A request that is served from Redis after a step was so before, or has just been answered. -/
theorem replayed_of_does (h : Does s a s') (hq' : s'.requests[j]? = some q')
    (hph : q'.phase = .replayed i resp) :
    s.requests[j]? = some q' ∨ ∃ key ok, q'.request.redisKey = some key ∧
      s.answer key ok = .replayed i resp := by
  have hresume : ∀ {k : Nat} {ph : Phase}, (s.resume k ph).requests[j]? = some q' →
      ph ≠ .replayed i resp → s.requests[j]? = some q' := by
    intro k ph hq' hne
    obtain ⟨q, hq, -, ⟨-, hnew⟩ | rfl⟩ := ticket_of_resume hq'
    · exact (hne (hnew.symm.trans hph)).elim
    · exact hq
  cases h with
  | arrive r =>
    rcases ticket_of_arrive hq' with hold | ⟨-, rfl⟩
    · exact .inl hold
    · cases hph
  | expire key => exact .inl hq'
  | direct | failOpen | refuse | own | publish => exact .inl (hresume hq' nofun)
  | @answer k q₀ key ok hq₀ hph₀ hkey =>
    obtain ⟨q, hq, hreq, ⟨rfl, hnew⟩ | rfl⟩ := ticket_of_resume hq'
    · cases hq₀.symm.trans hq
      exact .inr ⟨key, ok, hreq ▸ hkey, hnew.symm.trans hph⟩
    · exact .inl hq
  | record =>
    refine .inl (hresume hq' ?_)
    unfold recording
    split <;> nofun
  | pass =>
    refine .inl (hresume hq' ?_)
    unfold passing
    split <;> nofun

/-- The invariant of who has written what: a value is under the key of its writer, and was served to
a request with that key. -/
structure Traced (s : State) : Prop where
  stored : ∀ {key e}, s.redis.lookup key = some e →
    ∃ q, s.requests[e.writer]? = some q ∧ q.request.redisKey = some key
  replayed : ∀ {j i : Nat} {q : Ticket} {resp : Response}, s.requests[j]? = some q →
    q.phase = .replayed i resp → ∃ p key, s.requests[i]? = some p ∧
      p.request.redisKey = some key ∧ q.request.redisKey = some key

theorem traced_init : Traced .init where
  stored h := by simp [init] at h
  replayed h := by simp [init] at h

theorem Traced.step (h : Traced s) (hd : Does s a s') : Traced s' where
  stored {key e} he := by
    obtain ⟨q, hq, hkey⟩ : ∃ q, s.requests[e.writer]? = some q ∧ q.request.redisKey = some key := by
      rcases stored_of_does hd he with hold | hnew
      · exact h.stored hold
      · exact hnew
    obtain ⟨q', hq', hreq⟩ := ticket_kept hd hq
    exact ⟨q', hq', hreq.symm ▸ hkey⟩
  replayed {j i q resp} hq hph := by
    obtain ⟨p, key, hp, hpkey, hqkey⟩ : ∃ p key, s.requests[i]? = some p ∧
        p.request.redisKey = some key ∧ q.request.redisKey = some key := by
      rcases replayed_of_does hd hq hph with hold | ⟨key, ok, hkey, hanswer⟩
      · exact h.replayed hold hph
      · obtain ⟨e, he, rfl⟩ := writer_of_answer hanswer
        obtain ⟨p, hp, hpkey⟩ := h.stored he
        exact ⟨p, key, hp, hpkey, hkey⟩
    obtain ⟨p', hp', hreq⟩ := ticket_kept hd hp
    exact ⟨p', key, hp', hreq.symm ▸ hpkey, hqkey⟩

/-- Every response that is served from Redis was recorded for a request with the same tenant header,
idempotency key, method and path. -/
def Isolated (s : State) : Prop :=
  ∀ (j i : Nat) (q : Ticket) (resp : Response), s.requests[j]? = some q →
    q.phase = .replayed i resp → ∃ p : Ticket, s.requests[i]? = some p ∧
      p.request.xTenantID = q.request.xTenantID ∧
      p.request.idempotencyKey = q.request.idempotencyKey ∧
      p.request.method = q.request.method ∧ p.request.path = q.request.path

/-- Requests with one Redis key do not differ. -/
def Unambiguous (R : Request → Prop) : Prop :=
  ∀ r r', R r → R r' → r.redisKey = r'.redisKey → r.redisKey ≠ none →
    r.xTenantID = r'.xTenantID ∧ r.idempotencyKey = r'.idempotencyKey ∧ r.method = r'.method ∧
      r.path = r'.path

/-- The first request is handled, and the second one answered. -/
def oneAfterAnother (r r' : Request) : List Act :=
  [.arrive r, .fence 0 .ok, .handle 0 [] true, .publish 0 .ok, .arrive r', .fence 1 .ok,
    .lookup 1 true]

/-- The first request sets its key. -/
theorem step_own (h : r.redisKey = some key) : step ⟨∅, [⟨r, .arrived⟩], []⟩ (.fence 0 .ok) =
    some ⟨AList.insert key ⟨inProgress, 0⟩ ∅, [⟨r, .running⟩], [(0, r)]⟩ := by
  simp [step, h, setNX, execute, resume, -AList.insert_empty]

/-- The second of two requests with one Redis key is served what was recorded for the first. -/
theorem run_oneAfterAnother (h : r.redisKey = some key) (h' : r'.redisKey = some key) :
    ∃ s resp, Run.run step .init (oneAfterAnother r r') = some s ∧
      s.requests = [⟨r, .served resp⟩, ⟨r', .replayed 0 resp⟩] := by
  have hread : CachedResponse.unmarshal (CachedResponse.ofRecorder .new).marshal =
      some (.ofRecorder .new) := unmarshal_marshal ⟨[], rfl⟩
  have hreplay : (CachedResponse.ofRecorder .new).replay = some Recorder.new.writer.finish := rfl
  have hpublish : ∀ redis ex, step ⟨redis, [⟨r, .recorded .new⟩], ex⟩ (.publish 0 .ok) =
      some ⟨AList.insert key ⟨(CachedResponse.ofRecorder .new).marshal, 0⟩ redis,
        [⟨r, .served Recorder.new.writer.finish⟩], ex⟩ := by
    simp [step, h, set, resume]
  -- the second request finds the response, and reads what the first one was given
  have hrefuse : ∀ redis e ph ex, step ⟨AList.insert key e redis, [⟨r, ph⟩, ⟨r', .arrived⟩], ex⟩
      (.fence 1 .ok) = some ⟨AList.insert key e redis, [⟨r, ph⟩, ⟨r', .refused⟩], ex⟩ := by
    simp [step, h', resume]
  have hanswer : ∀ redis ph ex, step ⟨AList.insert key
        ⟨(CachedResponse.ofRecorder .new).marshal, 0⟩ redis, [⟨r, ph⟩, ⟨r', .refused⟩], ex⟩
      (.lookup 1 true) = some ⟨AList.insert key ⟨(CachedResponse.ofRecorder .new).marshal, 0⟩ redis,
        [⟨r, ph⟩, ⟨r', .replayed 0 Recorder.new.writer.finish⟩], ex⟩ := by
    simp [step, h', resume, answer, marshal_ne_inProgress, hread, hreplay]
  exact ⟨_, _, (Run.run_cons rfl _).trans <| (Run.run_cons (step_own h) _).trans <|
    (Run.run_cons rfl _).trans <| (Run.run_cons (hpublish _ _) _).trans <|
    (Run.run_cons rfl _).trans <| (Run.run_cons (hrefuse _ _ _ _) _).trans <|
    (Run.run_cons (hanswer _ _ _) _).trans rfl, rfl⟩

/-- **Replays are isolated exactly if no two of the requests share a Redis key** without agreeing in
tenant header, idempotency key, method and path. -/
theorem isolated_iff (R : Request → Prop) :
    (∀ as s, (∀ r, .arrive r ∈ as → R r) → Run.run step .init as = some s → s.Isolated) ↔
      Unambiguous R := by
  constructor
  · intro hall r r' hr hr' hkeys hsome
    obtain ⟨key, hkey⟩ := Option.ne_none_iff_exists'.1 hsome
    obtain ⟨s, resp, hrun, hreq⟩ := run_oneAfterAnother hkey (hkeys.symm.trans hkey)
    have harrive : ∀ q, .arrive q ∈ oneAfterAnother r r' → R q := by
      intro q hq
      simp only [oneAfterAnother, List.mem_cons, Act.arrive.injEq, reduceCtorEq, false_or,
        List.not_mem_nil, or_false] at hq
      rcases hq with rfl | rfl
      · exact hr
      · exact hr'
    obtain ⟨p, hp, hsame⟩ := hall _ s harrive hrun 1 0 ⟨r', .replayed 0 resp⟩ resp
      (by rw [hreq]; rfl) rfl
    rw [hreq] at hp
    cases hp
    exact hsame
  · intro hun as s harrive hrun
    have hinv : Traced s ∧ ∀ (i : Nat) (q : Ticket), s.requests[i]? = some q → R q.request := by
      refine Run.run_of_forall (P := fun a => ∀ r, a = .arrive r → R r)
        (I := fun s => Traced s ∧ ∀ (i : Nat) (q : Ticket), s.requests[i]? = some q → R q.request)
        (fun hI ha hstep => ?_) ⟨traced_init, fun i q hq => ?_⟩ (fun a ha r hr => ?_) hrun
      · have hd := does_of_step hstep
        refine ⟨hI.1.step hd, fun i q hq => ?_⟩
        rcases ticket_of_does hd hq with ⟨q₀, hq₀, hreq⟩ | harr
        · exact hreq ▸ hI.2 i q₀ hq₀
        · exact ha _ harr
      · simp [init] at hq
      · exact harrive r (hr ▸ ha)
    intro j i q resp hq hph
    obtain ⟨p, key, hp, hpkey, hqkey⟩ := hinv.1.replayed hq hph
    refine ⟨p, hp, hun _ _ (hinv.2 i p hp) (hinv.2 j q hq) (hpkey.trans hqkey.symm) ?_⟩
    rw [hpkey]
    exact Option.some_ne_none key

/-- Two tenants, whose headers run together to one Redis key. -/
def colonTenant : Request :=
  ⟨"POST".toList, "/files/commit".toList, some "a:b".toList, some "c".toList⟩

def colonKey : Request :=
  ⟨"POST".toList, "/files/initiate".toList, some "a".toList, some "b:c".toList⟩

/-- **A response is served to another tenant's request**, for another route. -/
theorem replay_crosses_tenants :
    colonTenant.xTenantID ≠ colonKey.xTenantID ∧ colonTenant.path ≠ colonKey.path ∧
      ∃ s resp, Run.run step .init (oneAfterAnother colonTenant colonKey) = some s ∧
        s.requests = [⟨colonTenant, .served resp⟩, ⟨colonKey, .replayed 0 resp⟩] ∧
        ¬ s.Isolated := by
  refine ⟨by decide, by decide, ?_⟩
  have hkey : colonTenant.redisKey = some "aegis:idempotency:a:b:c".toList := by decide
  have hkey' : colonKey.redisKey = some "aegis:idempotency:a:b:c".toList := by decide
  obtain ⟨s, resp, hrun, hreq⟩ := run_oneAfterAnother hkey hkey'
  refine ⟨s, resp, hrun, hreq, fun hiso => ?_⟩
  obtain ⟨p, hp, htenant, -⟩ := hiso 1 0 ⟨colonKey, .replayed 0 resp⟩ resp (by rw [hreq]; rfl) rfl
  rw [hreq] at hp
  cases hp
  exact absurd (show colonTenant.xTenantID = colonKey.xTenantID from htenant) (by decide)

/-! ## One execution for each key -/

/-- The requests with a key whose handler has been called. -/
def executionsOf (s : State) (key : List Char) : List Nat :=
  (s.executions.filter fun e => e.2.redisKey = some key).map Prod.fst

/-- Redis and the handler do as they should for the requests with a key: commands succeed, the key
does not expire, and the handler returns and is well behaved. -/
def Smooth (key : List Char) (s : State) : Act → Prop
  | .arrive _ => True
  | .fence i outcome => ∀ q, s.requests[i]? = some q → q.request.redisKey = some key → outcome = .ok
  | .lookup i ok => ∀ q, s.requests[i]? = some q → q.request.redisKey = some key → ok = true
  | .handle i outputs returns => ∀ q, s.requests[i]? = some q → q.request.redisKey = some key →
    returns = true ∧ (outputs.foldlM Recorder.emit .new).isSome ∧ Behaved outputs
  | .publish i outcome => ∀ q, s.requests[i]? = some q → q.request.redisKey = some key →
    outcome = .ok
  | .expire key' => key' ≠ key

/-- What is under the key while its request is at a phase. -/
inductive Owned (text : List Char) : Phase → Prop
  | running : text = inProgress → Owned text .running
  | recorded {r : Recorder} : text = inProgress → r.body.IsValidUTF8 →
    (CachedResponse.ofRecorder r).replay = some r.writer.finish → Owned text (.recorded r)
  | served {c : CachedResponse} {resp : Response} : text = c.marshal → c.body.IsValidUTF8 →
    c.replay = some resp → Owned text (.served resp)

/-- How far another request can have come while the one that runs the handler is at a phase. -/
inductive Guest (owner : Phase) : Phase → Prop
  | arrived : Guest owner .arrived
  | refused : Guest owner .refused
  | conflict : Guest owner .conflict
  | replayed {i : Nat} {resp : Response} : owner = .served resp → Guest owner (.replayed i resp)

/-- The invariant of a key: nobody has come to it, or one request runs the handler and the others
wait for it or have been answered. -/
inductive Fenced (key : List Char) (s : State) : Prop
  | free : s.redis.lookup key = none → s.executionsOf key = [] →
    (∀ (i : Nat) (q : Ticket), s.requests[i]? = some q → q.request.redisKey = some key →
      q.phase = .arrived) → Fenced key s
  | held {o : Nat} {p : Ticket} {e : Stored} : s.redis.lookup key = some e →
    s.executionsOf key = [o] → s.requests[o]? = some p → p.request.redisKey = some key →
    Owned e.text p.phase →
    (∀ (i : Nat) (q : Ticket), i ≠ o → s.requests[i]? = some q → q.request.redisKey = some key →
      Guest p.phase q.phase) → Fenced key s

theorem fenced_init (key : List Char) : Fenced key .init :=
  .free rfl rfl fun i q hq => by simp [init] at hq

/-- Requests that have not been answered wait for any owner. -/
theorem Guest.unserved (h : Guest owner ph) (hne : ∀ resp, owner ≠ .served resp) :
    Guest owner' ph := by
  cases h with
  | arrived => exact .arrived
  | refused => exact .refused
  | conflict => exact .conflict
  | replayed hserved => exact (hne _ hserved).elim

/-- What leaves the key, its requests and their executions alone, but for requests that arrive. -/
theorem Fenced.frame (h : Fenced key s) (hredis : s'.redis.lookup key = s.redis.lookup key)
    (hexec : s'.executionsOf key = s.executionsOf key)
    (hkeep : ∀ (i : Nat) (q : Ticket), s.requests[i]? = some q → q.request.redisKey = some key →
      s'.requests[i]? = some q)
    (hback : ∀ (i : Nat) (q : Ticket), s'.requests[i]? = some q → q.request.redisKey = some key →
      s.requests[i]? = some q ∨ q.phase = .arrived) : Fenced key s' := by
  cases h with
  | free hnone hno hall =>
    refine .free (hredis.trans hnone) (hexec.trans hno) fun i q hq hkey => ?_
    rcases hback i q hq hkey with hold | hnew
    · exact hall i q hold hkey
    · exact hnew
  | @held o p e he hone hp hpkey howned hguests =>
    refine .held (hredis.trans he) (hexec.trans hone) (hkeep o p hp hpkey) hpkey howned
      fun i q hi hq hkey => ?_
    rcases hback i q hq hkey with hold | hnew
    · exact hguests i q hi hold hkey
    · rw [hnew]
      exact .arrived

/-- A request without the key goes on. -/
theorem Fenced.other (h : Fenced key s) (hq : s.requests[i]? = some q)
    (hkey : q.request.redisKey ≠ some key) (hreq : s'.requests = (s.resume i ph).requests)
    (hredis : s'.redis.lookup key = s.redis.lookup key)
    (hexec : s'.executionsOf key = s.executionsOf key) : Fenced key s' := by
  refine h.frame hredis hexec (fun j p hp hpkey => ?_) fun j p hp hpkey => .inl ?_
  · rw [hreq, getElem?_resume, hp, Option.map_some, if_neg]
    rintro rfl
    cases hq.symm.trans hp
    exact hkey hpkey
  · rw [hreq] at hp
    obtain ⟨p₀, hp₀, hreq₀, ⟨rfl, -⟩ | rfl⟩ := ticket_of_resume hp
    · cases hq.symm.trans hp₀
      exact (hkey (hreq₀ ▸ hpkey)).elim
    · exact hp₀

theorem executionsOf_execute (s : State) (i : Nat) (r : Request) (ph : Phase) (key : List Char) :
    (s.execute i r ph).executionsOf key =
      s.executionsOf key ++ if r.redisKey = some key then [i] else [] := by
  simp only [executionsOf, execute, List.filter_append, List.map_append]
  by_cases h : r.redisKey = some key
  · simp [h]
  · simp [h]

/-- A request that cannot be the owner goes on, while another one is. -/
theorem Fenced.guest (h : Fenced key s) (hq : s.requests[i]? = some q)
    (hkey : q.request.redisKey = some key) (hown : ∀ text, ¬ Owned text q.phase)
    (hfree : s.redis.lookup key = none → q.phase ≠ .arrived)
    (hph : ∀ {e owner}, s.redis.lookup key = some e → Owned e.text owner → Guest owner ph) :
    Fenced key (s.resume i ph) := by
  cases h with
  | free hnone _ hall => exact (hfree hnone (hall i q hq hkey)).elim
  | @held o p e he hone hp hpkey howned hguests =>
    refine .held he hone ?_ hpkey howned fun j q hj hq hkey => ?_
    · rw [getElem?_resume, hp, Option.map_some, if_neg]
      rintro rfl
      cases hp.symm.trans hq
      exact hown _ howned
    · obtain ⟨q₀, hq₀, -, ⟨-, hnew⟩ | rfl⟩ := ticket_of_resume hq
      · rw [hnew]
        exact hph he howned
      · exact hguests j q hj hq₀ hkey

/-- A request that is further than guests come is the owner. -/
theorem Fenced.owner (h : Fenced key s) (hq : s.requests[i]? = some q)
    (hkey : q.request.redisKey = some key) (hnot : ∀ owner, ¬ Guest owner q.phase) :
    ∃ e, s.redis.lookup key = some e ∧ s.executionsOf key = [i] ∧ Owned e.text q.phase ∧
      ∀ (j : Nat) (p : Ticket), j ≠ i → s.requests[j]? = some p →
        p.request.redisKey = some key → Guest q.phase p.phase := by
  cases h with
  | free _ _ hall =>
    rw [hall i q hq hkey] at hnot
    exact (hnot .arrived .arrived).elim
  | @held o p e he hone hp hpkey howned hguests =>
    obtain rfl : i = o := by
      by_contra hi
      exact hnot _ (hguests i q hi hq hkey)
    cases hp.symm.trans hq
    exact ⟨e, he, hone, howned, hguests⟩

/-- The owner goes on. -/
theorem fenced_owner (hp : s.requests[o]? = some p) (hpkey : p.request.redisKey = some key)
    (hreq : s'.requests = (s.resume o ph).requests) (he : s'.redis.lookup key = some e)
    (hone : s'.executionsOf key = [o]) (howned : Owned e.text ph)
    (hguests : ∀ (i : Nat) (q : Ticket), i ≠ o → s.requests[i]? = some q →
      q.request.redisKey = some key → Guest ph q.phase) : Fenced key s' := by
  refine .held (p := { p with phase := ph }) he hone ?_ hpkey howned fun j q hj hq hkey => ?_
  · rw [hreq, getElem?_resume, hp, Option.map_some, if_pos rfl]
  · rw [hreq] at hq
    obtain ⟨q₀, hq₀, -, ⟨rfl, -⟩ | rfl⟩ := ticket_of_resume hq
    · exact (hj rfl).elim
    · exact hguests j q hj hq₀ hkey

/-- What a request answers while another one owns the key. -/
theorem guest_answer (he : s.redis.lookup key = some e) (howned : Owned e.text owner) :
    Guest owner (s.answer key true) := by
  simp only [answer, he]
  cases howned with
  | running htext | recorded htext _ _ =>
    rw [if_pos htext]
    exact .conflict
  | served htext hutf hreplay =>
    rw [htext, if_neg (marshal_ne_inProgress _), unmarshal_marshal hutf]
    dsimp only
    rw [hreplay]
    exact .replayed rfl

/-- What a well-behaved handler leaves to be stored. -/
theorem owned_recording (hr : (outputs.foldlM Recorder.emit .new).isSome) (h : Behaved outputs)
    (htext : text = inProgress) : Owned text (recording outputs true) := by
  obtain ⟨r, hr⟩ := Option.isSome_iff_exists.1 hr
  obtain ⟨hreplay, hbody⟩ := replay_record h.statusFirst hr
  unfold recording
  rw [hr]
  exact .recorded htext (hbody ▸ h.isText) hreplay

theorem ne_of_redisKey {r : Request} (h : r.redisKey = some key') (hne : r.redisKey ≠ some key) :
    key ≠ key' :=
  fun hsame => hne (hsame ▸ h)

/-- **One step** keeps the fence of a key. -/
theorem Fenced.step (h : Fenced key s) (hok : Smooth key s a) (hd : Does s a s') :
    Fenced key s' := by
  cases hd with
  | arrive r =>
    refine h.frame rfl rfl (fun i q hq _ => ?_) fun i q hq _ => ?_
    · exact (List.getElem?_append_left (List.getElem?_eq_some_iff.1 hq).1).trans hq
    · rcases ticket_of_arrive hq with hold | ⟨-, rfl⟩
      · exact .inl hold
      · exact .inr rfl
  | direct hq hph hnone =>
    have hne : _ ≠ some key := fun hkey => nomatch hnone.symm.trans hkey
    refine h.other hq hne rfl rfl ?_
    rw [executionsOf_execute, if_neg hne, List.append_nil]
  | @failOpen i q key' outcome hq hph hkey hfail =>
    have hne : q.request.redisKey ≠ some key := fun hsame => hfail (hok q hq hsame)
    refine h.other hq hne rfl ?_ ?_
    · show (setNX s.redis key' i outcome).lookup key = _
      unfold setNX
      split
      · rfl
      · rw [Table.lookup_insert_eq, if_neg (ne_of_redisKey hkey hne)]
    · rw [executionsOf_execute, if_neg hne, List.append_nil]
      rfl
  | @refuse i q key' e hq hph hkey he =>
    by_cases hsame : q.request.redisKey = some key
    · obtain rfl := Option.some.inj (hkey.symm.trans hsame)
      refine h.guest hq hkey (by rw [hph]; nofun) (fun hnone => ?_) fun _ _ => .refused
      cases hnone.symm.trans he
    · exact h.other hq hsame rfl rfl rfl
  | @own i q key' hq hph hkey hnone =>
    by_cases hsame : q.request.redisKey = some key
    · obtain rfl := Option.some.inj (hkey.symm.trans hsame)
      cases h with
      | held he _ _ _ _ _ => exact nomatch hnone.symm.trans he
      | free _ hno hall =>
        refine fenced_owner (e := ⟨inProgress, i⟩) hq hkey rfl ?_ ?_ (.running rfl)
          fun j p hj hp hpkey => ?_
        · exact (Table.lookup_insert_eq ..).trans (if_pos rfl)
        · rw [executionsOf_execute, if_pos hkey]
          exact congrArg (· ++ [i]) hno
        · rw [hall j p hp hpkey]
          exact .arrived
    · refine h.other hq hsame rfl ?_ ?_
      · exact (Table.lookup_insert_eq ..).trans (if_neg (ne_of_redisKey hkey hsame))
      · rw [executionsOf_execute, if_neg hsame, List.append_nil]
        rfl
  | @answer i q key' ok hq hph hkey =>
    by_cases hsame : q.request.redisKey = some key
    · obtain rfl := Option.some.inj (hkey.symm.trans hsame)
      obtain rfl := hok q hq hkey
      exact h.guest hq hkey (by rw [hph]; nofun) (fun _ => by rw [hph]; nofun) guest_answer
    · exact h.other hq hsame rfl rfl rfl
  | @record i q outputs returns hq hph =>
    by_cases hkey : q.request.redisKey = some key
    · obtain ⟨rfl, hr, hb⟩ := hok q hq hkey
      obtain ⟨e, he, hone, howned, hguests⟩ := h.owner hq hkey (by rw [hph]; nofun)
      rw [hph] at howned hguests
      cases howned with
      | running htext =>
        refine fenced_owner hq hkey rfl he hone (owned_recording hr hb htext) ?_
        exact fun j q hj hq hkey => (hguests j q hj hq hkey).unserved nofun
    · exact h.other hq hkey rfl rfl rfl
  | @pass i q outputs returns hq hph =>
    by_cases hkey : q.request.redisKey = some key
    · obtain ⟨e, -, -, howned, -⟩ := h.owner hq hkey (by rw [hph]; nofun)
      rw [hph] at howned
      nomatch howned
    · exact h.other hq hkey rfl rfl rfl
  | @publish i q key' r outcome hq hph hkey =>
    by_cases hsame : q.request.redisKey = some key
    · obtain rfl := Option.some.inj (hkey.symm.trans hsame)
      obtain rfl := hok q hq hkey
      obtain ⟨e, he, hone, howned, hguests⟩ := h.owner hq hkey (by rw [hph]; nofun)
      rw [hph] at howned hguests
      cases howned with
      | recorded _ hutf hreplay =>
        refine fenced_owner (e := ⟨(CachedResponse.ofRecorder r).marshal, i⟩) hq hkey rfl ?_ hone
          (.served rfl hutf hreplay) fun j q hj hq hkey => ?_
        · exact (Table.lookup_insert_eq ..).trans (if_pos rfl)
        · exact (hguests j q hj hq hkey).unserved nofun
    · refine h.other hq hsame rfl ?_ rfl
      show (State.set s.redis key' i (.ofRecorder r) outcome).lookup key = _
      unfold State.set
      split
      · rfl
      · rw [Table.lookup_insert_eq, if_neg (ne_of_redisKey hkey hsame)]
  | expire key' =>
    have hne : key' ≠ key := hok
    refine h.frame ?_ rfl (fun _ _ hq _ => hq) fun _ _ hq _ => .inl hq
    exact (Table.lookup_erase_eq ..).trans (if_neg hne.symm)

/-- A request with the key has come to its SETNX. -/
def Passed (s : State) (key : List Char) : Prop :=
  ∃ (i : Nat) (q : Ticket), s.requests[i]? = some q ∧ q.request.redisKey = some key ∧
    q.phase ≠ .arrived

/-- **The handler is executed once for each key**: not before a request has come to its SETNX, and
by one request from then on. Every other request with the key that is answered gets the conflict, or
the response that the one has produced. -/
theorem handled_once {key : List Char} {as : List Act} {s : State}
    (hsmooth : Run.Throughout step (Smooth key) .init as) (hrun : Run.run step .init as = some s) :
    (¬ s.Passed key → s.executionsOf key = []) ∧
      (s.Passed key → ∃ (o : Nat) (p : Ticket), s.executionsOf key = [o] ∧
        s.requests[o]? = some p ∧ p.request.redisKey = some key ∧
        ∀ (i : Nat) (q : Ticket) (resp : Response), i ≠ o → s.requests[i]? = some q →
          q.request.redisKey = some key → q.phase.response = some resp →
          resp = conflictResponse ∨ p.phase.produced = some resp) := by
  have hfenced : Fenced key s :=
    hsmooth.run_induction (I := Fenced key) (fun h hok hs => h.step hok (does_of_step hs))
      (fenced_init key) hrun
  cases hfenced with
  | free hnone hno hall =>
    refine ⟨fun _ => hno, ?_⟩
    rintro ⟨i, q, hq, hkey, hph⟩
    exact (hph (hall i q hq hkey)).elim
  | @held o p e he hone hp hpkey howned hguests =>
    refine ⟨fun hnot => ?_, fun _ => ⟨o, p, hone, hp, hpkey, fun i q resp hi hq hkey hresp => ?_⟩⟩
    · refine (hnot ⟨o, p, hp, hpkey, fun hph => ?_⟩).elim
      rw [hph] at howned
      nomatch howned
    · have hguest := hguests i q hi hq hkey
      cases hph : q.phase with
      | conflict =>
        rw [hph] at hresp
        cases hresp
        exact .inl rfl
      | replayed j resp' =>
        rw [hph] at hguest hresp
        cases hresp
        cases hguest with
        | replayed hserved =>
          rw [hserved]
          exact .inr rfl
      | served resp' =>
        rw [hph] at hguest
        nomatch hguest
      | arrived | refused | running | direct | recorded _ | panicked =>
        rw [hph] at hresp
        cases hresp

/-- A request with a key, without a tenant. -/
def retried : Request := ⟨"POST".toList, "/files/commit".toList, none, some "k".toList⟩

/-- Two more requests come while the first is handled; one is answered at once, one afterwards. -/
def retries : List Act :=
  [.arrive retried, .arrive retried, .arrive retried, .fence 1 .ok, .fence 0 .ok, .lookup 0 true,
    .fence 2 .ok, .handle 1 [.writeHeader 201, .write "é".toUTF8] true, .publish 1 .ok,
      .lookup 2 true]

theorem handled_once_retries :
    ∃ (s : State) (o : Nat) (p : Ticket), Run.run step .init retries = some s ∧
      s.requests.map (fun q => (q.request, q.phase.response)) =
        [(retried, some conflictResponse), (retried, some ⟨201, "é".toUTF8⟩),
          (retried, some ⟨201, "é".toUTF8⟩)] ∧
      s.executionsOf "aegis:idempotency:global:k".toList = [o] ∧ s.requests[o]? = some p := by
  have hdata : (Run.run step .init retries).map (fun s =>
      s.requests.map fun q => (q.request, q.phase.response)) =
      some [(retried, some conflictResponse), (retried, some ⟨201, "é".toUTF8⟩),
        (retried, some ⟨201, "é".toUTF8⟩)] := by
    decide +kernel
  obtain ⟨s, hrun, hresponses⟩ := Option.map_eq_some_iff.1 hdata
  have hbehaved : Behaved [.writeHeader 201, .write "é".toUTF8] :=
    ⟨by decide, by decide +kernel⟩
  have hsmooth : ∀ a ∈ retries, ∀ s, Smooth "aegis:idempotency:global:k".toList s a := by
    intro a ha s
    simp only [retries, List.mem_cons, List.not_mem_nil, or_false] at ha
    rcases ha with rfl | rfl | rfl | rfl | rfl | rfl | rfl | rfl | rfl | rfl
    case inr.inr.inr.inr.inr.inr.inr.inl =>
      exact fun _ _ _ => ⟨rfl, by decide +kernel, hbehaved⟩
    all_goals first
      | exact True.intro
      | exact fun _ _ _ => rfl
  have hpassed : s.Passed "aegis:idempotency:global:k".toList := by
    obtain ⟨q, rest, hq, hpair, -⟩ := List.map_eq_cons_iff.1 hresponses
    obtain ⟨hreq, hresp⟩ := Prod.mk.inj hpair
    refine ⟨0, q, by rw [hq]; rfl, by rw [hreq]; decide, fun hph => ?_⟩
    rw [hph] at hresp
    cases hresp
  obtain ⟨o, p, hone, hp, -⟩ := (handled_once (.of_forall hsmooth _) hrun).2 hpassed
  exact ⟨s, o, p, hrun, hresponses, hone, hp⟩

/-! ## Keys that stay in progress -/

/-- The request has won the fence, and its invocation has not ended. -/
def Busy : Phase → Prop
  | .running => True
  | .recorded _ => True
  | _ => False

/-- No key is stuck: `IN_PROGRESS` is there only while the request that wrote it is busy. -/
def Unstuck (s : State) : Prop :=
  ∀ key e, s.redis.lookup key = some e → e.text = inProgress →
    ∃ q, s.requests[e.writer]? = some q ∧ Busy q.phase

/-- SETNX is answered; a handler that runs behind the fence returns, with no call that panics; and
the context of its request is not cancelled before the SET. -/
def Completes (s : State) : Act → Prop
  | .fence _ outcome => outcome = .ok
  | .handle i outputs returns => ∀ q, s.requests[i]? = some q → q.phase = .running →
    returns = true ∧ (outputs.foldlM Recorder.emit .new).isSome
  | .publish _ outcome => outcome ≠ .failed
  | _ => True

/-- A marker whose request is not the one that goes on, or goes on to be busy. -/
theorem Unstuck.resume (h : s.Unstuck) (hq : s.requests[i]? = some q)
    (he : s.redis.lookup key = some e) (htext : e.text = inProgress)
    (hbusy : e.writer = i → Busy q.phase → Busy ph) :
    ∃ q, (s.resume i ph).requests[e.writer]? = some q ∧ Busy q.phase := by
  obtain ⟨p, hp, hpbusy⟩ := h key e he htext
  refine ⟨_, (getElem?_resume ..).trans (congrArg _ hp), ?_⟩
  split
  · next hi =>
    subst hi
    cases hq.symm.trans hp
    exact hbusy rfl hpbusy
  · exact hpbusy

theorem Unstuck.step (h : s.Unstuck) (ht : Traced s) (hok : s.Completes a) (hd : Does s a s') :
    s'.Unstuck := by
  cases hd with
  | arrive r =>
    intro key e he htext
    obtain ⟨q, hq, hbusy⟩ := h key e he htext
    exact ⟨q, (List.getElem?_append_left (List.getElem?_eq_some_iff.1 hq).1).trans hq, hbusy⟩
  | failOpen _ _ _ hne => exact absurd hok hne
  | direct hq hph _ | refuse hq hph _ _ | answer hq hph _ | pass hq hph =>
    exact fun key e he htext => h.resume hq he htext fun _ => by rw [hph]; exact False.elim
  | @own i q key' hq hph hkey hnone =>
    intro key e he htext
    have he : (s.redis.insert key' ⟨inProgress, i⟩).lookup key = some e := he
    rw [Table.lookup_insert_eq] at he
    split at he
    · cases he
      exact ⟨_, (getElem?_resume ..).trans (congrArg _ hq), by simp [Busy]⟩
    · exact h.resume hq he htext fun _ => by rw [hph]; exact False.elim
  | record hq hph =>
    obtain ⟨rfl, hr⟩ := hok _ hq hph
    obtain ⟨r, hr⟩ := Option.isSome_iff_exists.1 hr
    exact fun key e he htext => h.resume hq he htext fun _ _ => by simp [recording, hr, Busy]
  | @publish i q key' r outcome hq hph hkey =>
    intro key e he htext
    have he : (State.set s.redis key' i (.ofRecorder r) outcome).lookup key = some e := he
    rw [State.set, if_neg hok, Table.lookup_insert_eq] at he
    split at he
    · cases he
      exact absurd htext (marshal_ne_inProgress _)
    · next hne =>
      -- what the request has written is under its own key
      refine h.resume hq he htext fun hi _ => ?_
      obtain ⟨p, hp, hpkey⟩ := ht.stored he
      rw [hi, hq] at hp
      cases hp
      exact absurd (Option.some.inj (hpkey.symm.trans hkey)) hne
  | expire key' =>
    intro key e he
    rw [Table.lookup_erase_eq] at he
    split at he
    · cases he
    · exact h key e he

/-- **No key stays in progress** where every invocation behind the fence completes. -/
theorem unstuck_of_completes (as : List Act) (s : State)
    (hok : Run.Throughout step Completes .init as) (hrun : Run.run step .init as = some s) :
    s.Unstuck := by
  have hinit : Unstuck .init := fun _ _ h => by simp [init] at h
  exact (hok.run_induction (I := fun s => Traced s ∧ s.Unstuck) (fun h hok hs =>
    ⟨h.1.step (does_of_step hs), h.2.step h.1 hok (does_of_step hs)⟩) ⟨traced_init, hinit⟩ hrun).2

theorem unstuck_served :
    ∃ s, Run.run step .init [.arrive retried, .fence 0 .ok, .handle 0 [] true, .publish 0 .ok] =
      some s ∧ s.Unstuck := by
  obtain ⟨s, hs⟩ := Option.isSome_iff_exists.1 (show (Run.run step .init [.arrive retried,
    .fence 0 .ok, .handle 0 [] true, .publish 0 .ok]).isSome = true by decide +kernel)
  exact ⟨s, hs, unstuck_of_completes _ s (.of_forall (by simp [Completes]) _) hs⟩

/-- The handler panics, and the key stays in progress. -/
theorem stuck_panicked :
    ∃ s, Run.run step .init [.arrive retried, .fence 0 .ok, .handle 0 [] false] = some s ∧
      s.requests = [⟨retried, .panicked⟩] ∧ ¬ s.Unstuck := by
  have hkey : retried.redisKey = some "aegis:idempotency:global:k".toList := by decide
  refine ⟨_, (Run.run_cons rfl _).trans <| (Run.run_cons (step_own hkey) _).trans <|
    (Run.run_cons rfl _).trans rfl, rfl, fun h => ?_⟩
  obtain ⟨q, hq, hbusy⟩ := h _ ⟨inProgress, 0⟩ (AList.lookup_insert _) rfl
  cases hq
  exact hbusy

end State

end Aegis.Ingress.Idempotency
