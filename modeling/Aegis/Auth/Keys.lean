import Aegis.Db.Schema

/-!
# Signing keys

`StaticKMS` (internal/auth/keys.go): for each tenant a current key version and the records of all
versions, where a superseded version verifies for seven more days. Keys are of any type; clock
readings and what the entropy source returns, fresh key material or its error, are arguments.
Activation times, which nothing reads, are left out.
-/

namespace Aegis.Auth

variable {Key : Type}

/-- `OverlapWindow`. -/
def overlapWindow : Time := 7 * 24 * 3600 * 10 ^ 9

/-- The zero `time.Time`. -/
def zeroTime : Time := -62135596800 * 10 ^ 9

/-- `KeyRecord`; `none` is the zero `SupersededAt`. -/
structure KeyRecord (Key : Type) where
  key : Key
  supersededAt : Option Time

/-- A time as a record has it. -/
def stamp (now : Time) : Option Time := if now = zeroTime then none else some now

/-- `Active`. -/
def KeyRecord.active (r : KeyRecord Key) (now : Time) : Bool :=
  match r.supersededAt with
  | none => true
  | some t => now < t + overlapWindow

/-- `tenantKeys`: the current version has a record. -/
structure TenantKeys (Key : Type) where
  current : Int
  versions : Table Int (KeyRecord Key)
  recorded : (versions.lookup current).isSome = true

/-- The record of the current version. -/
def TenantKeys.currentRecord (tk : TenantKeys Key) : KeyRecord Key :=
  (tk.versions.lookup tk.current).get tk.recorded

/-- Make `version` the current one, with a new record. -/
def TenantKeys.activate (versions : Table Int (KeyRecord Key)) (version : Int)
    (key : Key) : TenantKeys Key where
  current := version
  versions := versions.insert version ⟨key, none⟩
  recorded := by simp

theorem TenantKeys.lookup_activate (versions : Table Int (KeyRecord Key)) (version : Int)
    (key : Key)
    (v : Int) :
    (activate versions version key).versions.lookup v =
      if v = version then some ⟨key, none⟩ else versions.lookup v :=
  Table.lookup_insert_eq _ _ _ _

/-- The largest `int`. -/
def maxInt : Int := 2 ^ 63 - 1

/-- `current++`, on an `int`. -/
def nextVersion (version : Int) : Int := if version = maxInt then -2 ^ 63 else version + 1

/-- `StaticKMS`. -/
structure StaticKMS (Key : Type) where
  tenants : Table Uuid (TenantKeys Key)
  autoProvision : Bool

/-- The errors of the key store. -/
inductive KmsError
  | noKeysProvisioned (tenantId : Uuid)
  | signingEntropy (err : String)
  | verificationEntropy (err : String)
  | rotateEntropy (err : String)
  deriving DecidableEq

def KmsError.text : KmsError → String
  | .noKeysProvisioned tenantId =>
    "auth: no keys provisioned for tenant " ++ String.ofList tenantId.text
  | .signingEntropy err => "auth: auto-provision key entropy: " ++ err
  | .verificationEntropy err => "auth: auto-provision verification key entropy: " ++ err
  | .rotateEntropy err => "auth: rotate key entropy: " ++ err

namespace StaticKMS

def put (s : StaticKMS Key) (tenantId : Uuid) (tk : TenantKeys Key) : StaticKMS Key :=
  { s with tenants := s.tenants.insert tenantId tk }

/-- `Provision`. -/
def provision (s : StaticKMS Key) (tenantId : Uuid) (version : Int) (key : Key) : StaticKMS Key :=
  let versions := ((s.tenants.lookup tenantId).map TenantKeys.versions).getD ∅
  s.put tenantId (.activate versions version key)

/-- The keys of a tenant, which auto-provisioning makes up if there are none. The two callers differ
in how they report that there was no entropy for that. -/
def tenantKeys (s : StaticKMS Key) (entropy : String → KmsError) (raw : Except String Key)
    (tenantId : Uuid) : Except KmsError (TenantKeys Key) × StaticKMS Key :=
  match s.tenants.lookup tenantId with
  | some tk => (.ok tk, s)
  | none =>
    if s.autoProvision then
      match raw with
      | .error e => (.error (entropy e), s)
      | .ok key =>
        let tk := TenantKeys.activate ∅ 1 key
        (.ok tk, s.put tenantId tk)
    else (.error (.noKeysProvisioned tenantId), s)

/-- `SigningKey`. -/
def signingKey (s : StaticKMS Key) (raw : Except String Key) (tenantId : Uuid) :
    Except KmsError (Int × Key) × StaticKMS Key :=
  match s.tenantKeys .signingEntropy raw tenantId with
  | (.error e, s') => (.error e, s')
  | (.ok tk, s') => (.ok (tk.current, tk.currentRecord.key), s')

/-- `VerificationKey`: the key, if the version is active. -/
def verificationKey (s : StaticKMS Key) (now : Time) (raw : Except String Key) (tenantId : Uuid)
    (version : Int) : Except KmsError (Option Key) × StaticKMS Key :=
  match s.tenantKeys .verificationEntropy raw tenantId with
  | (.error e, s') => (.error e, s')
  | (.ok tk, s') =>
    (.ok (((tk.versions.lookup version).filter fun r => r.active now).map KeyRecord.key), s')

/-- `Rotate`: the next version becomes current, the old one enters its overlap window. -/
def rotate (s : StaticKMS Key) (now : Time) (raw : Except String Key) (tenantId : Uuid) :
    Except KmsError Int × StaticKMS Key :=
  match s.tenants.lookup tenantId with
  | none => (.error (.noKeysProvisioned tenantId), s)
  | some tk =>
    match raw with
    | .error e => (.error (.rotateEntropy e), s)
    | .ok key =>
      let old := { tk.currentRecord with supersededAt := stamp now }
      let versions := tk.versions.insert tk.current old
      let version := nextVersion tk.current
      (.ok version, s.put tenantId (.activate versions version key))

end StaticKMS

end Aegis.Auth
