import Aegis.Auth.Token
import Aegis.Lib.Url

/-!
# Tokens on the wire

`SignedToken.Query`, `SignedToken.URL` and `ParsePreSignedURL` (internal/auth/hmac.go): a token as
the path and the query of a URL, and its reading. A token with valid claims and a well-formed
signature is read back as it was (`parsePreSignedURL_root`). Of the path the first eight bytes are
cut off unread, so the path of another service is as good. The parser of UUIDs is a parameter, and
so is what `net/url` accepts as a host.
-/

namespace Aegis.Auth

/-! ## Writing -/

/-- The path of a chunk. -/
def chunksPath : List Char := ['/', 'c', 'h', 'u', 'n', 'k', 's', '/']

/-- The names of the query parameters. -/
inductive Param
  | tenant
  | ts
  | kv
  | ep
  | nonce
  | sig

def Param.text : Param → List Char
  | .tenant => ['t', 'e', 'n', 'a', 'n', 't']
  | .ts => ['t', 's']
  | .kv => ['k', 'v']
  | .ep => ['e', 'p']
  | .nonce => ['n', 'o', 'n', 'c', 'e']
  | .sig => ['s', 'i', 'g']

namespace SignedToken

/-- The value of a parameter. -/
def param (st : SignedToken (List Char)) : Param → List Char
  | .tenant => st.claims.tenantId.text
  | .ts => formatInt st.claims.expiryUnix.toInt
  | .kv => formatInt st.claims.keyVersion
  | .ep => st.claims.endpointId
  | .nonce => st.claims.nonceHex
  | .sig => st.signatureHex

/-- `Query`: the parameters in the order in which they are set. -/
def query (st : SignedToken (List Char)) : List (List Char × List Char) :=
  [.tenant, .ts, .kv, .ep, .nonce, .sig].map fun p : Param => (p.text, st.param p)

theorem query_ne_nil (st : SignedToken (List Char)) : st.query ≠ [] := List.cons_ne_nil _ _

/-- `URL`. -/
def url (st : SignedToken (List Char)) (base : List Char) : List Char :=
  base ++ (chunksPath ++ st.claims.blockHash ++ '?' :: Url.encode st.query)

end SignedToken

/-! ## Reading -/

/-- The errors of `ParsePreSignedURL`. -/
inductive WireError
  | urlParse
  | tenantId
  | timestamp
  | keyVersion
  | signatureEncoding
  | claims (what : Malformed)
  deriving DecidableEq

def WireError.text : WireError → String
  | .urlParse => "auth: malformed token: url parse"
  | .tenantId => "auth: malformed token: tenant id"
  | .timestamp => "auth: malformed token: timestamp"
  | .keyVersion => "auth: malformed token: key version"
  | .signatureEncoding => "auth: malformed token: signature encoding"
  | .claims what => "auth: malformed token: " ++ what.text

/-- A value that must be there. -/
def expect {α : Type} (e : WireError) : Option α → Except WireError α
  | none => .error e
  | some a => .ok a

/-- The value of a parameter, or no text. -/
def get (q : List (List Char × List Char)) (p : Param) : List Char := (q.lookup p.text).getD []

variable (authority : List Char → Bool) (parseUuid : List Char → Option Uuid)

/-- `ParsePreSignedURL`. What the path begins with is not looked at. -/
def parsePreSignedURL (raw : List Char) : Except WireError (SignedToken (List Char)) := do
  let u ← expect .urlParse (Url.parse authority raw)
  let q := Url.parseQuery u.rawQuery
  let tenantId ← expect .tenantId (parseUuid (get q .tenant))
  let expiryUnix ← expect .timestamp (parseInt (get q .ts))
  let keyVersion ← expect .keyVersion (parseInt (get q .kv))
  let st : SignedToken (List Char) :=
    { claims :=
        { tenantId := tenantId
          blockHash := if 8 < u.path.length then u.path.drop 8 else []
          expiryUnix := expiryUnix
          keyVersion := keyVersion.toInt
          endpointId := get q .ep
          nonceHex := get q .nonce }
      signatureHex := get q .sig }
  if st.signatureHex.length ≠ 64 || !isLowerHex st.signatureHex then .error .signatureEncoding
  else
    match st.claims.valid with
    | some m => .error (.claims m)
    | none => .ok st

/-! ## What is written is read -/

variable {c : Char}

theorem toNat_lt_of_isLowerHexDigit (h : isLowerHexDigit c = true) : c.toNat < 0x80 := by
  obtain ⟨n, rfl⟩ := exists_hexDigit h
  revert n
  decide

theorem toNat_lt_of_isEndpointChar (h : isEndpointChar c = true) : c.toNat < 0x80 := by
  have hrange : 48 ≤ c.toNat ∧ c.toNat ≤ 57 ∨ 65 ≤ c.toNat ∧ c.toNat ≤ 90 ∨
      97 ≤ c.toNat ∧ c.toNat ≤ 122 ∨ c = '_' ∨ c = '-' := by
    simpa [isEndpointChar, Char.le_def, UInt32.le_iff_toNat_le, or_assoc] using h
  rcases hrange with hrange | hrange | hrange | rfl | rfl
  · omega
  · omega
  · omega
  · decide
  · decide

theorem toNat_lt_of_mem_formatInt (h : c ∈ formatInt i) : c.toNat < 0x80 := by
  rcases of_mem_formatInt h with hdigit | rfl
  · obtain ⟨-, hhi⟩ : 48 ≤ c.toNat ∧ c.toNat ≤ 57 := by
      simpa [Char.isDigit, UInt32.le_iff_toNat_le] using hdigit
    omega
  · decide

theorem toNat_lt_of_mem_text {u : Uuid} (h : c ∈ u.text) : c.toNat < 0x80 := by
  rcases Uuid.of_mem_grouped h with hdigit | rfl
  · exact toNat_lt_of_isLowerHexDigit hdigit
  · decide

theorem isPathChar_of_isLowerHexDigit (h : isLowerHexDigit c = true) : Url.isPathChar c = true := by
  obtain ⟨n, rfl⟩ := exists_hexDigit h
  revert n
  decide

/-- A token of the right form. -/
structure SignedToken.WellFormed (st : SignedToken (List Char)) : Prop where
  claims : st.claims.valid = none
  length : st.signatureHex.length = 64
  lowerHex : isLowerHex st.signatureHex = true

namespace SignedToken.WellFormed

variable {st : SignedToken (List Char)} (h : st.WellFormed)
include h

theorem ascii : Url.AllFields (fun c => c.toNat < 0x80) st.query := by
  obtain ⟨-, -, -, -, hendpoint, -, -, -, hnonce⟩ := Claims.valid_iff.1 h.claims
  intro f hf
  obtain ⟨p, -, rfl⟩ := List.mem_map.1 hf
  have hname : ∀ p : Param, ∀ c ∈ p.text, c.toNat < 0x80 := by
    intro p c hc
    have hall : p.text.all (fun c => decide (c.toNat < 0x80)) = true := by cases p <;> decide
    exact of_decide_eq_true (List.all_eq_true.1 hall c hc)
  refine ⟨hname p, fun c hc => ?_⟩
  · cases p with
    | tenant => exact toNat_lt_of_mem_text hc
    | ts => exact toNat_lt_of_mem_formatInt hc
    | kv => exact toNat_lt_of_mem_formatInt hc
    | ep => exact toNat_lt_of_isEndpointChar (List.all_eq_true.1 hendpoint c hc)
    | nonce => exact toNat_lt_of_isLowerHexDigit (List.all_eq_true.1 hnonce c hc)
    | sig => exact toNat_lt_of_isLowerHexDigit (List.all_eq_true.1 h.lowerHex c hc)

theorem bytes : Url.AllFields (fun c => c.toNat < 256) st.query := fun f hf =>
  ⟨fun c hc => ((h.ascii f hf).1 c hc).trans (by decide),
    fun c hc => ((h.ascii f hf).2 c hc).trans (by decide)⟩

theorem isPathChar : ∀ c ∈ chunksPath ++ st.claims.blockHash, Url.isPathChar c = true := by
  obtain ⟨-, hhash, -⟩ := Claims.valid_iff.1 h.claims
  intro c hc
  rcases List.mem_append.1 hc with hc | hc
  · have hchunks : chunksPath.all Url.isPathChar = true := by decide
    exact List.all_eq_true.1 hchunks c hc
  · exact isPathChar_of_isLowerHexDigit (List.all_eq_true.1 hhash c hc)

theorem isQueryChar : ∀ c ∈ Url.encode st.query, Url.isQueryChar c = true := fun _ hc =>
  Url.isQueryChar_of_mem_encode h.bytes hc

end SignedToken.WellFormed

/-- Each parameter is found in the query. -/
theorem lookup_sorted_query (st : SignedToken (List Char)) (p : Param) :
    (Url.sorted st.query).lookup p.text = some (st.param p) := by
  have hsorted : Url.sorted st.query =
      [.ep, .kv, .nonce, .sig, .tenant, .ts].map fun p : Param => (p.text, st.param p) := by
    rfl
  rw [hsorted]
  cases p <;> rfl

variable {authority parseUuid}

/-- **What is written is read.** -/
theorem parsePreSignedURL_root (hparse : ∀ u : Uuid, parseUuid u.text = some u)
    {st : SignedToken (List Char)} (h : st.WellFormed) {root : Url.Root}
    (hhost : authority root.host = true) :
    parsePreSignedURL authority parseUuid (st.url root.text) = .ok st := by
  obtain ⟨hlen, -, -, -, -, hlo, hhi, -⟩ := Claims.valid_iff.1 h.claims
  have hurl : Url.parse authority (st.url root.text) =
      some ⟨chunksPath ++ st.claims.blockHash, Url.encode st.query⟩ :=
    Url.parse_root rfl h.isPathChar h.isQueryChar hhost
  have hget : ∀ p, get (Url.parseQuery (Url.encode st.query)) p = st.param p := by
    intro p
    rw [get, Url.parseQuery_encode st.query_ne_nil h.bytes, lookup_sorted_query]
    rfl
  have hversion : (Int64.ofInt st.claims.keyVersion).toInt = st.claims.keyVersion :=
    Int64.toInt_ofInt_of_le (by omega) (by omega)
  have hkv : parseInt (formatInt st.claims.keyVersion) =
      some (Int64.ofInt st.claims.keyVersion) := by
    have := parseInt_formatInt (Int64.ofInt st.claims.keyVersion)
    rwa [hversion] at this
  have hhash : (if 8 < (chunksPath ++ st.claims.blockHash).length then
      (chunksPath ++ st.claims.blockHash).drop 8 else []) = st.claims.blockHash := by
    rw [if_pos (by rw [List.length_append, hlen]; decide)]
    rfl
  unfold parsePreSignedURL
  rw [hurl]
  simp only [expect, bind, Except.bind, hget, SignedToken.param, hparse, parseInt_formatInt, hkv,
    hhash, hversion]
  rw [if_neg (by simp [h.length, h.lowerHex]), h.claims]

theorem parsePreSignedURL_url (hparse : ∀ u : Uuid, parseUuid u.text = some u)
    {st : SignedToken (List Char)} (h : st.WellFormed) {base : Url.Base}
    (hhost : authority base.host = true) :
    parsePreSignedURL authority parseUuid (st.url base.text) = .ok st :=
  @parsePreSignedURL_root authority parseUuid hparse st h base.root hhost

/-- **Round trip**: a token comes back from its URL, whatever the scheme and the host that
`net/url` accepts. -/
theorem parsePreSignedURL_roundTrip (authority : List Char → Bool)
    (parseUuid : List Char → Option Uuid) (hparse : ∀ u : Uuid, parseUuid u.text = some u)
    (st : SignedToken (List Char)) (hclaims : st.claims.valid = none)
    (hlen : st.signatureHex.length = 64) (hhex : isLowerHex st.signatureHex = true)
    (root : Url.Root) (hhost : authority root.host = true) :
    parsePreSignedURL authority parseUuid (st.url root.text) = .ok st :=
  parsePreSignedURL_root hparse ⟨hclaims, hlen, hhex⟩ hhost

/-- A token that expired before the epoch, at an endpoint with every kind of character. -/
def wireToken : SignedToken (List Char) where
  claims :=
    { tenantId := 1
      blockHash := List.replicate 64 'a'
      expiryUnix := -1
      keyVersion := 2
      endpointId := ['P', 'o', 'p', '_', '-', '9']
      nonceHex := List.replicate 32 '5' }
  signatureHex := List.replicate 64 'f'

/-- A scheme and a host. -/
def wireRoot : Url.Root where
  scheme := ['s', '3', '+', 'x']
  host := ['h', 'o', 's', 't']
  alpha := by decide
  schemeChars := List.all_eq_true.1 (by decide)
  plain := List.all_eq_true.1 (by decide)

theorem parsePreSignedURL_roundTrip_wireToken :
    parsePreSignedURL (fun host => host.all Url.isUnreserved) Uuid.parse
      (wireToken.url wireRoot.text) = .ok wireToken :=
  parsePreSignedURL_roundTrip _ Uuid.parse Uuid.parse_text wireToken (by decide) (by decide)
    (by decide) wireRoot (by decide)

/-! ## What is read of the path -/

theorem expect_bind_eq_ok (h : (expect e o >>= f) = .ok b) : ∃ a, o = some a ∧ f a = .ok b := by
  cases o with
  | none => cases h
  | some a => exact ⟨a, rfl, h⟩

/-- What a token has of the URL it is read from: the path without its first eight bytes. -/
theorem path_of_parsePreSignedURL (h : parsePreSignedURL authority parseUuid raw = .ok st) :
    ∃ u, Url.parse authority raw = some u ∧ st.claims.blockHash = u.path.drop 8 := by
  unfold parsePreSignedURL at h
  obtain ⟨u, hu, h⟩ := expect_bind_eq_ok h
  obtain ⟨tenantId, -, h⟩ := expect_bind_eq_ok h
  obtain ⟨expiryUnix, -, h⟩ := expect_bind_eq_ok h
  obtain ⟨keyVersion, -, h⟩ := expect_bind_eq_ok h
  refine ⟨u, hu, ?_⟩
  dsimp only at h
  split at h
  · cases h
  · split at h
    · cases h
    · next hvalid =>
      cases h
      -- a block hash of 64 digits is not what is left of a short path
      obtain ⟨hlen, -⟩ := Claims.valid_iff.1 hvalid
      dsimp only at hlen ⊢
      split
      · rfl
      · next hshort =>
        rw [if_neg hshort] at hlen
        cases hlen

/-- **The path is that of the block** exactly if it begins with `/chunks/`, which is not looked
at. -/
theorem path_eq_iff (authority : List Char → Bool) (parseUuid : List Char → Option Uuid)
    (raw : List Char) (st : SignedToken (List Char))
    (h : parsePreSignedURL authority parseUuid raw = .ok st) :
    ∃ u, Url.parse authority raw = some u ∧
      (u.path = chunksPath ++ st.claims.blockHash ↔ chunksPath <+: u.path) := by
  obtain ⟨u, hu, hhash⟩ := path_of_parsePreSignedURL h
  refine ⟨u, hu, ?_⟩
  rw [hhash, List.prefix_iff_eq_append]
  exact eq_comm

theorem path_eq_iff_wireToken :
    ∃ u, Url.parse (fun host => host.all Url.isUnreserved) (wireToken.url wireRoot.text) = some u ∧
      (u.path = chunksPath ++ wireToken.claims.blockHash ↔ chunksPath <+: u.path) :=
  path_eq_iff _ Uuid.parse _ wireToken
    (parsePreSignedURL_root Uuid.parse_text ⟨by decide, by decide, by decide⟩ (by decide))

/-- The query of a token behind a path of another kind. -/
def deleteUrl : List Char :=
  wireRoot.text ++ (['/', 'd', 'e', 'l', 'e', 't', 'e', '/'] ++ wireToken.claims.blockHash ++
    '?' :: Url.encode wireToken.query)

/-- **Another path is taken for that of the block.** -/
theorem deleteUrl_accepted :
    parsePreSignedURL (fun host => host.all Url.isUnreserved) Uuid.parse deleteUrl =
        .ok wireToken ∧
      (Url.parse (fun host => host.all Url.isUnreserved) deleteUrl).map Url.Parsed.path =
        some (['/', 'd', 'e', 'l', 'e', 't', 'e', '/'] ++ wireToken.claims.blockHash) ∧
      ['/', 'd', 'e', 'l', 'e', 't', 'e', '/'] ++ wireToken.claims.blockHash ≠
        chunksPath ++ wireToken.claims.blockHash := by
  refine ⟨by decide +kernel, by decide +kernel, by decide⟩

end Aegis.Auth
