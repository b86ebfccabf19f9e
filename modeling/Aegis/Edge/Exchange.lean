import Aegis.Edge.Worker

/-!
# One request to the worker

One request with everything it meets: what the clock says at each of its two readings, what
`TENANT_KEYS` gives and what the nonce store replies. A request ends without a response (`Breaks`),
or it is stopped at one of the checks (`Stops`), or it is admitted (`Admits`), and each is a
condition on the request and on what it meets.
-/

namespace Aegis.Edge

open Proc Ecma

/-- The response is a 200. -/
def Passes (r : Option Response) : Prop := r.map Response.status = some 200

theorem not_passes_unauthorized (reason : Reason) : ¬ Passes (some (unauthorized reason)) := nofun

theorem response?_of_said {reply : Reply} (h : reply.said = some true) :
    reply.response? = some validated := by
  cases reply with
  | networkError => cases h
  | response status body =>
    unfold Reply.said at h
    unfold Reply.response?
    dsimp only at h ⊢
    split at h
    · next hstatus =>
      obtain ⟨result, rfl, hok⟩ := Option.map_eq_some_iff.1 h
      rw [if_pos hstatus, Option.map_some, if_pos (by simpa using hok)]
    · cases h

theorem said_of_passes {reply : Reply} (h : Passes reply.response?) : reply.said = some true := by
  match reply with
  | .networkError => cases h
  | .response status body =>
    unfold Reply.response? at h
    unfold Reply.said
    dsimp only at h ⊢
    split at h
    · next hstatus =>
      rw [if_pos hstatus]
      cases body with
      | none => cases h
      | some result =>
        by_cases hok : result = some ['O', 'K']
        · rw [hok]
          rfl
        · rw [Option.map_some, if_neg hok] at h
          cases h
    · cases h

/-- The request is for a chunk and has its structure. -/
def Request.Reads (request : Request) (f : Fields) : Prop :=
  ∃ url, Url.splitWeb request.url = some url ∧ routed request url = true ∧ readFields url = some f

/-- A request with its structure comes to the checks of its fields. -/
theorem fetch_of_reads {request : Request} (h : request.Reads f) :
    fetch hmac request = validate hmac f := by
  obtain ⟨url, hurl, hroute, hread⟩ := h
  rw [fetch, hurl]
  dsimp only
  rw [if_pos hroute, hread]

/-- A request and what it meets. -/
structure Exchange where
  request : Request
  now : Int
  later : Int
  keys : List Char → Except String Value
  reply : List Char → Reply

namespace Exchange

/-- The answers, where the state is what the clock says at its next reading. -/
def answer (x : Exchange) : (c : Cmd) → Int → Answer c × Int
  | .dateNow, t => (t, x.later)
  | .getKeys name, t => (x.keys name, t)
  | .upstash url, t => (x.reply url, t)

/-- What a piece of the worker comes to from some time on. -/
def result (x : Exchange) (t : Int) (p : Routine (Option Response)) : Option Response :=
  (p.eval x.answer t).1

variable (hmac : Auth.Hmac) (x : Exchange)

/-- What `fetch` returns, or none if it throws. -/
def outcome : Option Response := x.result x.now (fetch hmac x.request)

/-! ## How far a request comes -/

/-- The request is fresh. -/
def Fresh (f : Fields) : Prop := x.request.Reads f ∧ checkFreshness x.now f.ts = none

/-- There is a record for the tenant. -/
def Finds (f : Fields) (record : Value) : Prop :=
  x.Fresh f ∧ x.keys (keysName f.tenant) = .ok record ∧ record.truthy = true

/-- The version is within its overlap window, if that can be told. -/
def overlap (version : Option Value) : Option Bool :=
  match supersededAt? version with
  | none => some false
  | some t => (t.plus (.finite overlapWindowMs)).map (Value.less (.ofInt x.later))

/-- The versions of the tenant are there, and so is the time at which the version was superseded. -/
def Consults (f : Fields) (version : Option Value) (active : Bool) : Prop :=
  ∃ record versions inOverlap, x.Finds f record ∧ versions? record = some versions ∧
    version? versions f.kv = version ∧ x.overlap version = some inOverlap ∧
    (isCurrent record f.kv || inOverlap) = active

/-- The request is signed. -/
def Genuine (f : Fields) : Prop :=
  ∃ version, x.Consults f (some version) true ∧ verifyWith hmac version f.message f.sig = some true

/-- The request is signed, and the nonce store says that its nonce is new. -/
def Admits : Prop :=
  ∃ f, x.Genuine hmac f ∧ (x.reply (setUrl f.nonce)).said = some true

/-- The check at which a request is stopped. -/
inductive Stops : Reason → Prop
  | route {url : Url.WebUrl} (hurl : Url.splitWeb x.request.url = some url)
      (hroute : routed x.request url = false) : Stops .route
  | malformed {url : Url.WebUrl} (hurl : Url.splitWeb x.request.url = some url)
      (hroute : routed x.request url = true) (hread : readFields url = none) : Stops .malformed
  | stale {f : Fields} {reason : Reason} (hread : x.request.Reads f)
      (hcheck : checkFreshness x.now f.ts = some reason) : Stops reason
  | keysUnavailable {f : Fields} {e : String} (hfresh : x.Fresh f)
      (hkeys : x.keys (keysName f.tenant) = .error e) : Stops .keysUnavailable
  | unknownTenant {f : Fields} {record : Value} (hfresh : x.Fresh f)
      (hkeys : x.keys (keysName f.tenant) = .ok record) (hrecord : record.truthy = false) :
      Stops .unknownTenant
  | noVersion {f : Fields} {active : Bool} (h : x.Consults f none active) : Stops .keyVersion
  | inactive {f : Fields} {version : Value} (h : x.Consults f (some version) false) :
      Stops .keyVersion
  | crypto {f : Fields} {version : Value} (h : x.Consults f (some version) true)
      (hkey : verifyWith hmac version f.message f.sig = none) : Stops .crypto
  | signature {f : Fields} {version : Value} (h : x.Consults f (some version) true)
      (hsig : verifyWith hmac version f.message f.sig = some false) : Stops .signature
  | replayStoreUnavailable {f : Fields} {status : Nat} {body : Option (Option (List Char))}
      (h : x.Genuine hmac f) (hreply : x.reply (setUrl f.nonce) = .response status body)
      (hstatus : ¬ (200 ≤ status ∧ status ≤ 299)) : Stops .replayStoreUnavailable
  | replay {f : Fields} {status : Nat} {result : Option (List Char)}
      (h : x.Genuine hmac f) (hreply : x.reply (setUrl f.nonce) = .response status (some result))
      (hstatus : 200 ≤ status ∧ status ≤ 299) (hresult : result ≠ some ['O', 'K']) : Stops .replay

/-- The exceptions that are not caught: the record has no versions, its time can not be added to, or
the nonce store can not be reached, or replies with something that has no properties. -/
inductive Breaks : Prop
  | url (hurl : Url.splitWeb x.request.url = none)
  | versions {f : Fields} {record : Value} (h : x.Finds f record)
      (hversions : versions? record = none)
  | supersededAt {f : Fields} {record versions : Value} (h : x.Finds f record)
      (hversions : versions? record = some versions)
      (htime : x.overlap (version? versions f.kv) = none)
  | unreachable {f : Fields} (h : x.Genuine hmac f)
      (hreply : x.reply (setUrl f.nonce) = .networkError)
  | unreadable {f : Fields} {status : Nat} (h : x.Genuine hmac f)
      (hreply : x.reply (setUrl f.nonce) = .response status none)
      (hstatus : 200 ≤ status ∧ status ≤ 299)

/-! ## What it comes to -/

variable {hmac : Auth.Hmac} {x : Exchange} {f : Fields}

theorem result_dateNow (t : Int) (next : Int → Routine (Option Response)) :
    x.result t (dateNow >>= next) = x.result x.later (next t) :=
  rfl

theorem result_getKeys (t : Int) (name : List Char)
    (next : Except String Value → Routine (Option Response)) :
    x.result t (getKeys name >>= next) = x.result t (next (x.keys name)) :=
  rfl

theorem result_inOverlap (version : Option Value) (next : Option Bool → Routine (Option Response)) :
    x.result x.later (inOverlap version >>= next) =
      x.result x.later (next (x.overlap version)) := by
  unfold inOverlap overlap
  cases supersededAt? version with
  | none => rfl
  | some t => rfl

theorem outcome_of_reads (h : x.request.Reads f) :
    x.outcome hmac = x.result x.now (validate hmac f) := by
  rw [outcome, fetch_of_reads h]

/-- What a fresh request is answered depends on the keys. -/
theorem outcome_of_fresh (h : x.Fresh f) :
    x.outcome hmac = match x.keys (keysName f.tenant) with
      | .error _ => some (unauthorized .keysUnavailable)
      | .ok record =>
        if record.truthy then x.result x.later (authenticate hmac f record)
        else some (unauthorized .unknownTenant) := by
  rw [outcome_of_reads h.1, validate, result_dateNow, h.2]
  dsimp only
  rw [result_getKeys]
  cases x.keys (keysName f.tenant) with
  | error e => rfl
  | ok record =>
    dsimp only
    split
    · rfl
    · rfl

theorem outcome_of_finds (h : x.Finds f record) :
    x.outcome hmac = x.result x.later (authenticate hmac f record) := by
  obtain ⟨hfresh, hkeys, htruthy⟩ := h
  rw [outcome_of_fresh hfresh, hkeys]
  exact if_pos htruthy

theorem outcome_of_versions (h : x.Finds f record) (hversions : versions? record = some versions) :
    x.outcome hmac = match x.overlap (version? versions f.kv) with
      | none => none
      | some inOverlap => x.result x.later
          (verify hmac f (version? versions f.kv) (isCurrent record f.kv || inOverlap)) := by
  rw [outcome_of_finds h, authenticate, hversions]
  dsimp only
  rw [result_inOverlap]
  cases x.overlap (version? versions f.kv) with
  | none => rfl
  | some inOverlap => rfl

/-- The version and whether it is active decide. -/
theorem outcome_of_consults (h : x.Consults f version active) :
    x.outcome hmac = x.result x.later (verify hmac f version active) := by
  obtain ⟨record, versions, inOverlap, hfinds, hversions, rfl, hoverlap, rfl⟩ := h
  rw [outcome_of_versions hfinds hversions, hoverlap]

theorem outcome_of_active (h : x.Consults f (some version) true) :
    x.outcome hmac = match verifyWith hmac version f.message f.sig with
      | none => some (unauthorized .crypto)
      | some false => some (unauthorized .signature)
      | some true => (x.reply (setUrl f.nonce)).response? := by
  rw [outcome_of_consults h, verify, if_pos rfl]
  rcases verifyWith hmac version f.message f.sig with _ | _ | _
  · rfl
  · rfl
  · rfl

/-- A genuine request is answered what the nonce store says. -/
theorem outcome_of_genuine (h : x.Genuine hmac f) :
    x.outcome hmac = (x.reply (setUrl f.nonce)).response? := by
  obtain ⟨version, hconsults, hsig⟩ := h
  rw [outcome_of_active hconsults, hsig]

theorem outcome_of_admits (h : x.Admits hmac) : x.outcome hmac = some validated := by
  obtain ⟨f, hgenuine, hsaid⟩ := h
  rw [outcome_of_genuine hgenuine, response?_of_said hsaid]

/-- A request that is stopped is refused with the name of the check. -/
theorem outcome_of_stops (h : x.Stops hmac reason) :
    x.outcome hmac = some (unauthorized reason) := by
  cases h with
  | route hurl hroute =>
    rw [outcome, fetch, hurl]
    dsimp only
    rw [hroute]
    rfl
  | malformed hurl hroute hread =>
    rw [outcome, fetch, hurl]
    dsimp only
    rw [if_pos hroute, hread]
    rfl
  | stale hread hcheck =>
    rw [outcome_of_reads hread, validate, result_dateNow, hcheck]
    rfl
  | keysUnavailable hfresh hkeys => rw [outcome_of_fresh hfresh, hkeys]
  | unknownTenant hfresh hkeys hrecord =>
    rw [outcome_of_fresh hfresh, hkeys]
    dsimp only
    rw [hrecord]
    rfl
  | noVersion h =>
    rw [outcome_of_consults h]
    rfl
  | inactive h =>
    rw [outcome_of_consults h]
    rfl
  | crypto h hkey => rw [outcome_of_active h, hkey]
  | signature h hsig => rw [outcome_of_active h, hsig]
  | replayStoreUnavailable h hreply hstatus =>
    rw [outcome_of_genuine h, hreply]
    exact if_neg hstatus
  | replay h hreply hstatus hresult =>
    rw [outcome_of_genuine h, hreply, Reply.response?, if_pos hstatus, Option.map_some,
      if_neg hresult]

/-- A request on which the worker throws has no answer. -/
theorem outcome_of_breaks (h : x.Breaks hmac) : x.outcome hmac = none := by
  cases h with
  | url hurl =>
    rw [outcome, fetch, hurl]
    rfl
  | versions h hversions =>
    rw [outcome_of_finds h, authenticate, hversions]
    rfl
  | supersededAt h hversions htime => rw [outcome_of_versions h hversions, htime]
  | unreachable h hreply =>
    rw [outcome_of_genuine h, hreply]
    rfl
  | unreadable h hreply hstatus =>
    rw [outcome_of_genuine h, hreply, Reply.response?, if_pos hstatus, Option.map_none]

/-! ## There is nothing else -/

variable (hmac x)

/-- A request ends without a response, is stopped, or is admitted. -/
def Settled : Prop :=
  x.Breaks hmac ∨ (∃ reason, x.Stops hmac reason) ∨ x.Admits hmac

variable {hmac x}

theorem settled_of_genuine (h : x.Genuine hmac f) : x.Settled hmac := by
  cases hreply : x.reply (setUrl f.nonce) with
  | networkError => exact .inl (.unreachable h hreply)
  | response status body =>
    by_cases hstatus : 200 ≤ status ∧ status ≤ 299
    · cases body with
      | none => exact .inl (.unreadable h hreply hstatus)
      | some result =>
        by_cases hresult : result = some ['O', 'K']
        · refine .inr (.inr ⟨f, h, ?_⟩)
          rw [hreply, Reply.said, if_pos hstatus, hresult]
          rfl
        · exact .inr (.inl ⟨_, .replay h hreply hstatus hresult⟩)
    · exact .inr (.inl ⟨_, .replayStoreUnavailable h hreply hstatus⟩)

theorem settled_of_consults (h : x.Consults f version active) : x.Settled hmac := by
  cases version with
  | none => exact .inr (.inl ⟨_, .noVersion h⟩)
  | some version =>
    cases active with
    | false => exact .inr (.inl ⟨_, .inactive h⟩)
    | true =>
      cases hsig : verifyWith hmac version f.message f.sig with
      | none => exact .inr (.inl ⟨_, .crypto h hsig⟩)
      | some genuine =>
        cases genuine with
        | false => exact .inr (.inl ⟨_, .signature h hsig⟩)
        | true => exact settled_of_genuine ⟨version, h, hsig⟩

theorem settled_of_finds (h : x.Finds f record) : x.Settled hmac := by
  cases hversions : versions? record with
  | none => exact .inl (.versions h hversions)
  | some versions =>
    cases hoverlap : x.overlap (version? versions f.kv) with
    | none => exact .inl (.supersededAt h hversions hoverlap)
    | some inOverlap =>
      exact settled_of_consults ⟨record, versions, inOverlap, h, hversions, rfl, hoverlap, rfl⟩

theorem settled_of_reads (h : x.request.Reads f) : x.Settled hmac := by
  cases hcheck : checkFreshness x.now f.ts with
  | some reason => exact .inr (.inl ⟨reason, .stale h hcheck⟩)
  | none =>
    cases hkeys : x.keys (keysName f.tenant) with
    | error e => exact .inr (.inl ⟨_, .keysUnavailable ⟨h, hcheck⟩ hkeys⟩)
    | ok record =>
      cases htruthy : record.truthy with
      | false => exact .inr (.inl ⟨_, .unknownTenant ⟨h, hcheck⟩ hkeys htruthy⟩)
      | true => exact settled_of_finds ⟨⟨h, hcheck⟩, hkeys, htruthy⟩

variable (hmac x)

/-- **Every exchange is settled**: it breaks, stops at a check or is let in. -/
theorem settled : x.Settled hmac := by
  cases hurl : Url.splitWeb x.request.url with
  | none => exact .inl (.url hurl)
  | some url =>
    cases hroute : routed x.request url with
    | false => exact .inr (.inl ⟨_, .route hurl hroute⟩)
    | true =>
      cases hread : readFields url with
      | none => exact .inr (.inl ⟨_, .malformed hurl hroute hread⟩)
      | some f => exact settled_of_reads ⟨url, hurl, hroute, hread⟩

/-- **The worker lets a request pass** exactly if it is admitted. -/
theorem passes_iff_admits : Passes (x.outcome hmac) ↔ x.Admits hmac := by
  constructor
  · intro hpass
    rcases x.settled hmac with hbreaks | ⟨reason, hstops⟩ | hadmits
    · rw [outcome_of_breaks hbreaks] at hpass
      cases hpass
    · rw [outcome_of_stops hstops] at hpass
      cases hpass
    · exact hadmits
  · intro hadmits
    rw [outcome_of_admits hadmits]
    rfl

end Exchange

end Aegis.Edge
