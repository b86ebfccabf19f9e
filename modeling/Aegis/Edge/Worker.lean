import Aegis.Auth.Wire
import Aegis.Lib.Ecma

/-!
# The validator at the edge

`deploy/cloudflare-worker/worker.js` as a program over the calls it makes: to the clock, to the
namespace `TENANT_KEYS` and to the REST interface of the nonce store. Numbers are the doubles of
ECMAScript, fields are checked by regular expressions, and a record of `TENANT_KEYS` is any JSON: it
is used as if it had the documented form. HMAC-SHA256 is a parameter, as for the validator of the
origin. An exception that is not caught ends the request without a response.
-/

namespace Aegis.Edge

open Proc Ecma Auth

/-! ## Requests and responses -/

structure Request where
  method : String
  url : List Char

/-- Why a request is refused. -/
inductive Reason
  | route
  | malformed
  | expired
  | futureExpiry
  | keysUnavailable
  | unknownTenant
  | keyVersion
  | crypto
  | signature
  | replayStoreUnavailable
  | replay
  deriving DecidableEq

def Reason.text : Reason → String
  | .route => "route"
  | .malformed => "structure"
  | .expired => "expired"
  | .futureExpiry => "future_expiry"
  | .keysUnavailable => "keys_unavailable"
  | .unknownTenant => "unknown_tenant"
  | .keyVersion => "key_version"
  | .crypto => "crypto"
  | .signature => "signature"
  | .replayStoreUnavailable => "replay_store_unavailable"
  | .replay => "replay"

structure Response where
  status : Nat
  body : Option String
  headers : List (String × String)
  deriving DecidableEq

def unauthorized (reason : Reason) : Response :=
  ⟨401, some "401 Unauthorized", [("x-aegis-reject", reason.text)]⟩

/-- The response to a request that has passed. -/
def validated : Response := ⟨200, none, [("x-aegis-validated", "edge")]⟩

/-! ## Calls -/

/-- The names of the properties of a record. -/
inductive Property
  | current
  | versions
  | key
  | supersededAt

def Property.text : Property → List Char
  | .current => ['c', 'u', 'r', 'r', 'e', 'n', 't']
  | .versions => ['v', 'e', 'r', 's', 'i', 'o', 'n', 's']
  | .key => ['k', 'e', 'y']
  | .supersededAt => ['s', 'u', 'p', 'e', 'r', 's', 'e', 'd', 'e', 'd', '_', 'a', 't']

/-- A key version in its documented form. -/
structure KeyVersion where
  key : List Char
  supersededAt : Option Number

/-- The keys of a tenant in their documented form. -/
structure KeysRecord where
  current : Number
  versions : List (List Char × KeyVersion)

def KeyVersion.value (v : KeyVersion) : Value :=
  .object [(Property.key.text, .text v.key),
    (Property.supersededAt.text, v.supersededAt.elim .null .number)]

/-- A record of `TENANT_KEYS`. -/
def KeysRecord.value (record : KeysRecord) : Value :=
  .object [(Property.current.text, .number record.current),
    (Property.versions.text, .object (record.versions.map fun e => (e.1, e.2.value)))]

/-- What `TENANT_KEYS` gives where there may be no record. -/
def recordValue (record : Option KeysRecord) : Value := record.elim .null KeysRecord.value

/-- What comes of a request to the nonce store: no response, or one with a status and a body, where
`none` is a body without properties, and otherwise what counts is the text in `result`. -/
inductive Reply
  | networkError
  | response (status : Nat) (body : Option (Option (List Char)))

/-- The calls of the worker. The URL of a request to the nonce store is what follows
`UPSTASH_URL`. -/
inductive Cmd
  | dateNow
  | getKeys (name : List Char)
  | upstash (url : List Char)

/-- The answers. Time is in whole milliseconds, and a record that is not there is null. -/
def Answer : Cmd → Type
  | .dateNow => Int
  | .getKeys _ => Except String Value
  | .upstash _ => Reply

/-- A piece of the worker. -/
abbrev Routine (β : Type) : Type := Proc Cmd Answer β

def dateNow : Routine Int := perform Cmd.dateNow

def getKeys (name : List Char) : Routine (Except String Value) := perform (Cmd.getKeys name)

def upstash (url : List Char) : Routine Reply := perform (Cmd.upstash url)

/-! ## Constants and checks -/

/-- `OVERLAP_WINDOW_MS`. -/
def overlapWindowMs : Int := 7 * 24 * 3600 * 1000

/-- `TTL_SECONDS`. -/
def ttlSeconds : Int := 900

/-- `SKEW_SECONDS`. -/
def skewSeconds : Int := 60

/-- A text that matches `/^[…]+$/`. -/
def matchesAll (p : Char → Bool) (s : List Char) : Bool := !s.isEmpty && s.all p

def isValidLowerHex (len : Nat) (s : List Char) : Bool :=
  s.length == len && matchesAll isLowerHexDigit s

/-- `[A-Za-z0-9_-]`. -/
def isWordChar (c : Char) : Bool :=
  'A' ≤ c && c ≤ 'Z' || 'a' ≤ c && c ≤ 'z' || '0' ≤ c && c ≤ '9' || c == '_' || c == '-'

def isEndpointSafe (s : List Char) : Bool :=
  1 ≤ s.length && s.length ≤ 64 && matchesAll isWordChar s

/-- What follows `n` hexadecimal digits. -/
def afterHex (n : Nat) (s : List Char) : Option (List Char) :=
  if (s.take n).length = n ∧ (s.take n).all isLowerHexDigit = true then some (s.drop n) else none

/-- What follows a dash. -/
def afterDash : List Char → Option (List Char)
  | '-' :: s => some s
  | _ => none

/-- `isUUID`: `/^[0-9a-f]{8}-[0-9a-f]{4}-[0-9a-f]{4}-[0-9a-f]{4}-[0-9a-f]{12}$/`. -/
def isUUID (s : List Char) : Bool :=
  ((afterHex 8 s).bind afterDash |>.bind (afterHex 4) |>.bind afterDash |>.bind (afterHex 4)
    |>.bind afterDash |>.bind (afterHex 4) |>.bind afterDash |>.bind (afterHex 12)) == some []

/-! ## Structure -/

/-- The fields of a request, after the checks of their form. -/
structure Fields where
  blockHash : List Char
  tenant : List Char
  ts : Int
  kv : Int
  ep : List Char
  nonce : List Char
  sig : List Char

/-- The request is for a chunk. -/
def routed (request : Request) (url : Url.WebUrl) : Bool :=
  chunksPath.isPrefixOf url.pathname && request.method ∈ ["PUT", "POST"]

/-- Step 1 of `fetch`: the fields, if all of them have their form. -/
def readFields (url : Url.WebUrl) : Option Fields := do
  let q := Url.formParse url.search
  let blockHash ← some (url.pathname.drop chunksPath.length) |>.filter (isValidLowerHex 64)
  let tenant ← (q.lookup Param.tenant.text).filter isUUID
  let ts ← (toNumber (q.lookup Param.ts.text)).integer?
  let kv ← (toNumber (q.lookup Param.kv.text)).integer?.filter (1 ≤ ·)
  let ep ← (q.lookup Param.ep.text).filter isEndpointSafe
  let nonce ← (q.lookup Param.nonce.text).filter (isValidLowerHex 32)
  let sig ← (q.lookup Param.sig.text).filter (isValidLowerHex 64)
  return ⟨blockHash, tenant, ts, kv, ep, nonce, sig⟩

/-! ## Freshness, keys and signature -/

/-- Step 2 of `fetch`. -/
def checkFreshness (now ts : Int) : Option Reason :=
  let nowSec := ((Number.ofInt now).div 1000).floor
  if ((Number.finite ts).add (.finite skewSeconds)).lt nowSec then some .expired
  else if ((nowSec.add (.finite ttlSeconds)).add (.finite skewSeconds)).lt (.finite ts) then
    some .futureExpiry
  else none

/-- The name under which the keys of a tenant are kept. -/
def keysName (tenant : List Char) : List Char := ['k', 'e', 'y', 's', ':'] ++ tenant

/-- The message that is signed. -/
def Fields.message (f : Fields) : List Char :=
  ['a', 'e', 'g', 'i', 's', '1', ':'] ++ integerText f.kv ++ [':'] ++ f.tenant ++ [':'] ++
    f.blockHash ++ [':'] ++ integerText f.ts ++ [':'] ++ f.ep ++ [':'] ++ f.nonce

/-- The versions of a record; none if there are no properties to be read of them, and `fetch`
throws. -/
def versions? (record : Value) : Option Value :=
  (record.get Property.versions.text).filter fun v => !v.isNull

/-- The version that a request names, if it is there. -/
def version? (versions : Value) (kv : Int) : Option Value :=
  (versions.get (integerText kv)).filter Value.truthy

/-- `kv === record.current`. -/
def isCurrent (record : Value) (kv : Int) : Bool :=
  match record.get Property.current.text with
  | some (.number current) => (Number.finite kv).strictEq current
  | _ => false

/-- `version.superseded_at`, unless it is null or missing. -/
def supersededAt? (version : Option Value) : Option Value :=
  version.bind fun v => (v.get Property.supersededAt.text).filter fun t => !t.isNull

/-- The version is within its overlap window; only where it is superseded the clock is read. None if
what `superseded_at` is can not be added to. -/
def inOverlap (version : Option Value) : Routine (Option Bool) :=
  match supersededAt? version with
  | none => return some false
  | some t => do
    let now ← dateNow
    return (t.plus (.finite overlapWindowMs)).map (Value.less (.ofInt now))

/-- `hmacVerify`; a key without bytes cannot be imported. -/
def hmacVerify (hmac : Auth.Hmac)
    (keyHex message sigHex : List Char) :
    Option Bool :=
  if hexBytes keyHex = [] then none
  else some ((hmac (hexBytes keyHex) message).toList = hexBytes sigHex)

/-- `hmacVerify` with the key of a version, where only a text can be taken for hexadecimal. -/
def verifyWith (hmac : Auth.Hmac) (version : Value)
    (message sigHex : List Char) : Option Bool :=
  match version.get Property.key.text with
  | some (.text keyHex) => hmacVerify hmac keyHex message sigHex
  | _ => none

/-! What is read of records in their documented form. -/

/-- The versions of a record as they are kept. -/
def KeysRecord.versionsValue (record : KeysRecord) : Value :=
  .object (record.versions.map fun e => (e.1, e.2.value))

theorem versions?_value (record : KeysRecord) :
    versions? record.value = some record.versionsValue :=
  rfl

theorem isCurrent_value (record : KeysRecord) (kv : Int) :
    isCurrent record.value kv = (Number.finite kv).strictEq record.current :=
  rfl

theorem version?_value (record : KeysRecord) (kv : Int) :
    version? record.versionsValue kv =
      (record.versions.lookup (integerText kv)).map KeyVersion.value := by
  have hget : record.versionsValue.get (integerText kv) =
      (record.versions.lookup (integerText kv)).map KeyVersion.value := by
    show (record.versions.map fun e => (e.1, e.2.value)).lookup (integerText kv) = _
    induction record.versions with
    | nil => rfl
    | cons e l ih =>
      rw [List.map_cons, List.lookup_cons, List.lookup_cons, ih]
      cases integerText kv == e.1 with
      | true => rfl
      | false => rfl
  rw [version?, hget]
  cases record.versions.lookup (integerText kv) with
  | none => rfl
  | some v => rfl

theorem supersededAt?_value (v : KeyVersion) :
    supersededAt? (some v.value) = v.supersededAt.map Value.number := by
  unfold KeyVersion.value
  cases v.supersededAt with
  | none => rfl
  | some t => rfl

theorem verifyWith_value (hmac : Auth.Hmac) (v : KeyVersion)
    (message sigHex : List Char) :
    verifyWith hmac v.value message sigHex = hmacVerify hmac v.key message sigHex :=
  rfl

/-! ## Replay -/

/-- The request to set the nonce, unless it is set. -/
def setUrl (nonce : List Char) : List Char :=
  ['/', 's', 'e', 't', '/', 'a', 'e', 'g', 'i', 's', '%', '3', 'A', 'n', 'o', 'n', 'c', 'e', '%',
    '3',
    'A'] ++ nonce ++ ['/', '1', '/', 'N', 'X', '/', 'E', 'X', '/'] ++
    formatInt (ttlSeconds + skewSeconds)

/-- What the reply says: whether the nonce was set, if it says so. -/
def Reply.said : Reply → Option Bool
  | .networkError => none
  | .response status body =>
    if 200 ≤ status ∧ status ≤ 299 then body.map fun result => result == some ['O', 'K'] else none

/-- What the worker makes of a reply; without a response, or without properties in its body, it
throws. -/
def Reply.response? : Reply → Option Response
  | .networkError => none
  | .response status body =>
    if 200 ≤ status ∧ status ≤ 299 then
      body.map fun result =>
        if result = some ['O', 'K'] then validated else unauthorized .replay
    else some (unauthorized .replayStoreUnavailable)

/-! ## The worker -/

/-- The end of step 3 of `fetch`, and its steps 4 and 5. -/
def verify (hmac : Auth.Hmac) (f : Fields)
    (version : Option Value) (active : Bool) : Routine (Option Response) :=
  match version with
  | none => return some (unauthorized .keyVersion)
  | some v =>
    if active then
      match verifyWith hmac v f.message f.sig with
      | none => return some (unauthorized .crypto)
      | some false => return some (unauthorized .signature)
      | some true => do
        let reply ← upstash (setUrl f.nonce)
        return reply.response?
    else return some (unauthorized .keyVersion)

/-- Steps 3 to 5 of `fetch` with the keys of the tenant. -/
def authenticate (hmac : Auth.Hmac) (f : Fields)
    (record : Value) : Routine (Option Response) :=
  match versions? record with
  | none => return none
  | some versions => do
    let version := version? versions f.kv
    match ← inOverlap version with
    | none => return none
    | some inOverlap => verify hmac f version (isCurrent record f.kv || inOverlap)

/-- Steps 2 to 5 of `fetch`. -/
def validate (hmac : Auth.Hmac) (f : Fields) :
    Routine (Option Response) := do
  let now ← dateNow
  match checkFreshness now f.ts with
  | some reason => return some (unauthorized reason)
  | none =>
    match ← getKeys (keysName f.tenant) with
    | .error _ => return some (unauthorized .keysUnavailable)
    | .ok record =>
      if record.truthy then authenticate hmac f record
      else return some (unauthorized .unknownTenant)

/-- `fetch`: the response, or none if it throws. -/
def fetch (hmac : Auth.Hmac) (request : Request) :
    Routine (Option Response) :=
  match Url.splitWeb request.url with
  | none => return none
  | some url =>
    if routed request url then
      match readFields url with
      | none => return some (unauthorized .malformed)
      | some f => validate hmac f
    else return some (unauthorized .route)

end Aegis.Edge
