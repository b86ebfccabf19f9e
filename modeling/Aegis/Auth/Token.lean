import Aegis.Auth.Claims
import Aegis.Auth.Keys
import Aegis.Lib.Effect

/-!
# Pre-signed tokens

`TokenGenerator.SignClaims` and `TokenGenerator.Validate` (internal/auth/hmac.go) as programs over
the calls they make: to the clock, the key store, the entropy source, the nonce store and the
ownership checker. The MAC and its textual form are parameters (`Mac`), so that the same programs
run with any MAC. Unix seconds are 64-bit and wrap around as in the source.
-/

namespace Aegis.Auth

open Proc

/-! ## Calls -/

/-- The calls of signing and validation. -/
inductive Cmd
  | now
  | signingKey (tenantId : Uuid)
  | verificationKey (tenantId : Uuid) (version : Int)
  | randRead
  | consume (nonce : List Char) (ttl : Time)
  | ownsBlock (tenantId : Uuid) (blockHash : List Char)

/-- The answers. -/
def Answer (Key : Type) : Cmd → Type
  | .now => Time
  | .signingKey _ => Except KmsError (Int × Key)
  | .verificationKey _ _ => Except KmsError (Option Key)
  | .randRead => Except String (BitVec 128)
  | .consume _ _ => Except String Bool
  | .ownsBlock _ _ => Except String Bool

/-- A piece of signing or validation. -/
abbrev Routine (Key β : Type) : Type := Proc Cmd (Answer Key) β

variable {Key Tag Sig : Type}

def now : Routine Key Time := perform Cmd.now

def signingKey (tenantId : Uuid) : Routine Key (Except KmsError (Int × Key)) :=
  perform (Cmd.signingKey tenantId)

def verificationKey (tenantId : Uuid) (version : Int) :
    Routine Key (Except KmsError (Option Key)) :=
  perform (Cmd.verificationKey tenantId version)

def randRead : Routine Key (Except String (BitVec 128)) := perform Cmd.randRead

def consume (nonce : List Char) (ttl : Time) : Routine Key (Except String Bool) :=
  perform (Cmd.consume nonce ttl)

def ownsBlock (tenantId : Uuid) (blockHash : List Char) : Routine Key (Except String Bool) :=
  perform (Cmd.ownsBlock tenantId blockHash)

/-! ## Tokens -/

/-- The MAC (`computeMAC`) and the text of its values: the length of a key, the encoding, the check
of an encoded value and its decoding. -/
structure Mac (Key Tag Sig : Type) where
  size : Key → Nat
  compute : Key → List Char → Tag
  encode : Tag → Sig
  wellFormed : Sig → Bool
  decode : Sig → Option Tag

/-- HMAC-SHA256: of a key and a message. -/
abbrev Hmac : Type := List UInt8 → List Char → Vector UInt8 32

/-- The MAC of the source, where `hmac` is HMAC-SHA256: 32 bytes, written in hexadecimal. -/
def hexMac (hmac : Hmac) :
    Mac (List UInt8) (List UInt8) (List Char) where
  size := List.length
  compute key message := (hmac key message).toList
  encode := encodeToString
  wellFormed sig := sig.length = 64 && isLowerHex sig
  decode := decodeString

/-- `SignedToken`. -/
structure SignedToken (Sig : Type) where
  claims : Claims
  signatureHex : Sig
  deriving DecidableEq

/-- The errors of signing and validation. -/
inductive AuthError
  | malformed (what : Malformed)
  | expired
  | tooFarInFuture
  | unknownKeyVersion (version : Int)
  | badSignature
  | replay
  | notTenantBlock
  | nonceUnavailable (err : String)
  | verificationKey (err : KmsError)
  | ownershipProbe (err : String)
  | signingKey (err : KmsError)
  | keyTooWeak (bytes : Nat)
  | nonceEntropy (err : String)
  deriving DecidableEq

def AuthError.text : AuthError → String
  | .malformed what => "auth: malformed token: " ++ what.text
  | .expired => "auth: token expired"
  | .tooFarInFuture => "auth: token expiry too far in future"
  | .unknownKeyVersion version =>
    "auth: unknown or retired key version: v" ++ String.ofList (formatInt version)
  | .badSignature => "auth: signature mismatch"
  | .replay => "auth: nonce already used"
  | .notTenantBlock => "auth: tenant does not own block"
  | .nonceUnavailable err => "auth: replay store unavailable: " ++ err
  | .verificationKey err => "auth: verification key: " ++ err.text
  | .ownershipProbe err => "auth: ownership probe: " ++ err
  | .signingKey err => "auth: signing key: " ++ err.text
  | .keyTooWeak bytes =>
    "auth: tenant key too weak (" ++ String.ofList (formatInt bytes) ++ " bytes)"
  | .nonceEntropy err => "auth: nonce entropy: " ++ err

/-- The settings of a `TokenGenerator`, with its MAC. -/
structure TokenGenerator (Key Tag Sig : Type) where
  mac : Mac Key Tag Sig
  ttl : Time
  skew : Time
  hasOwnership : Bool

/-- `Unix`: the whole second. -/
def unix (t : Time) : Int64 := .ofInt (t / 10 ^ 9)

/-- `int64(d.Seconds())`, which drops the fraction. The source goes through a `float64`, exact for
whole seconds; below 2^24 seconds it never rounds a fraction up to the next second. -/
def wholeSeconds (d : Time) : Int64 := .ofInt (d.tdiv (10 ^ 9))

theorem toInt_wholeSeconds {n : Nat} (h : n < 2 ^ 61) :
    (wholeSeconds (n * 10 ^ 9)).toInt = n := by
  rw [wholeSeconds, Int.mul_tdiv_cancel _ (by decide),
    Int64.toInt_ofInt_of_le (by omega) (by omega)]

theorem toInt_unix (hn : t / 10 ^ 9 = n) (hlo : -2 ^ 63 ≤ n) (hhi : n < 2 ^ 63) :
    (unix t).toInt = n := by
  rw [unix, hn, Int64.toInt_ofInt_of_le hlo hhi]

namespace TokenGenerator

variable (g : TokenGenerator Key Tag Sig)

/-! ## Signing -/

/-- The token for claims, unless they are malformed. -/
def signWith (key : Key) (claims : Claims) : Except AuthError (SignedToken Sig) :=
  match claims.valid with
  | some m => .error (.malformed m)
  | none => .ok ⟨claims, g.mac.encode (g.mac.compute key claims.message)⟩

/-- `SignClaims`. -/
def signClaims (tenantId : Uuid) (blockHash endpointId : List Char) :
    Routine Key (Except AuthError (SignedToken Sig)) := do
  match ← signingKey tenantId with
  | .error e => return .error (.signingKey e)
  | .ok (version, key) =>
    if g.mac.size key < 32 then return .error (.keyTooWeak (g.mac.size key))
    else
      match ← randRead with
      | .error e => return .error (.nonceEntropy e)
      | .ok nonce => do
        let t ← now
        return g.signWith key
          ⟨tenantId, blockHash, unix (t + g.ttl), version, endpointId, hexText 32 nonce.toNat⟩

/-! ## Validation -/

/-- Step 1 of `Validate`: what is wrong with the form of the token, if anything. -/
def checkStructure (tok : SignedToken Sig) : Option Malformed :=
  match tok.claims.valid with
  | some m => some m
  | none => if g.mac.wellFormed tok.signatureHex then none else some .signatureEncoding

/-- Step 2 of `Validate`: expired, or expiring too far in the future. -/
def checkFreshness (t : Time) (claims : Claims) : Option AuthError :=
  if claims.expiryUnix + wholeSeconds g.skew < unix t then some .expired
  else if claims.expiryUnix > unix t + wholeSeconds (g.ttl + g.skew) then some .tooFarInFuture
  else none

/-- Step 6 of `Validate`; an edge validator has no ownership checker. -/
def checkOwnership (claims : Claims) : Routine Key (Except AuthError Unit) := do
  if g.hasOwnership then
    match ← ownsBlock claims.tenantId claims.blockHash with
    | .error e => return .error (.ownershipProbe e)
    | .ok false => return .error .notTenantBlock
    | .ok true => return .ok ()
  else return .ok ()

/-- Steps 5 and 6 of `Validate`: consume the nonce, then ask for the owner. -/
def redeem (claims : Claims) : Routine Key (Except AuthError Unit) := do
  match ← consume claims.nonceHex (g.ttl + g.skew) with
  | .error e => return .error (.nonceUnavailable e)
  | .ok false => return .error .replay
  | .ok true => g.checkOwnership claims

/-- Steps 3 to 6 of `Validate`. -/
def authenticate (tok : SignedToken Sig) [DecidableEq Tag] :
    Routine Key (Except AuthError Unit) := do
  match ← verificationKey tok.claims.tenantId tok.claims.keyVersion with
  | .error e => return .error (.verificationKey e)
  | .ok none => return .error (.unknownKeyVersion tok.claims.keyVersion)
  | .ok (some key) =>
    match g.mac.decode tok.signatureHex with
    | none => return .error (.malformed .signatureDecode)
    | some got =>
      if g.mac.compute key tok.claims.message = got then g.redeem tok.claims
      else return .error .badSignature

/-- `Validate`: `ok` is `(true, nil)`. -/
def validate (tok : SignedToken Sig) [DecidableEq Tag] : Routine Key (Except AuthError Unit) := do
  match g.checkStructure tok with
  | some m => return .error (.malformed m)
  | none => do
    let t ← now
    match g.checkFreshness t tok.claims with
    | some e => return .error e
    | none => g.authenticate tok

/-! ## What the results tell -/

/-- A signed token has valid claims and the MAC of their message. -/
theorem signClaims_always (tenantId : Uuid) (blockHash endpointId : List Char) :
    (g.signClaims tenantId blockHash endpointId).Always fun r => ∀ st, r = .ok st →
      st.claims.valid = none ∧
        ∃ key, st.signatureHex = g.mac.encode (g.mac.compute key st.claims.message) := by
  intro a
  cases a with
  | error e => exact nofun
  | ok vk =>
    obtain ⟨version, key⟩ := vk
    show Always _ (if g.mac.size key < 32 then _ else _)
    split
    · exact nofun
    · intro nonce
      cases nonce with
      | error e => exact nofun
      | ok nonce =>
        intro t st hst
        simp only [signWith] at hst
        split at hst
        · cases hst
        · next hvalid =>
          cases hst
          exact ⟨hvalid, key, rfl⟩

theorem valid_of_checkStructure (h : g.checkStructure tok = none) : tok.claims.valid = none := by
  unfold checkStructure at h
  split at h
  · cases h
  · assumption

theorem authenticate_always (tok : SignedToken Sig) [DecidableEq Tag] :
    (g.authenticate tok).Always fun r => r = .ok () →
      ∃ key, g.mac.decode tok.signatureHex = some (g.mac.compute key tok.claims.message) := by
  intro a
  match a with
  | .error e => exact nofun
  | .ok none => exact nofun
  | .ok (some key) =>
    show Always _ (match g.mac.decode tok.signatureHex with | none => _ | some got => _)
    split
    · exact nofun
    · next got hgot =>
      show Always _ (if g.mac.compute key tok.claims.message = got then _ else _)
      split
      · next hmac => exact Always.of_forall fun _ _ => ⟨key, by rw [hgot, hmac]⟩
      · exact nofun

/-- An accepted token has valid claims and the MAC of their message. -/
theorem validate_always (tok : SignedToken Sig) [DecidableEq Tag] :
    (g.validate tok).Always fun r => r = .ok () →
      tok.claims.valid = none ∧
        ∃ key, g.mac.decode tok.signatureHex = some (g.mac.compute key tok.claims.message) := by
  unfold validate
  split
  · exact nofun
  · next hform =>
    have hvalid : tok.claims.valid = none := g.valid_of_checkStructure hform
    intro t
    show Always _ (match g.checkFreshness t tok.claims with | some e => _ | none => _)
    split
    · exact nofun
    · exact (g.authenticate_always tok).mono fun _ h hr => ⟨hvalid, h hr⟩

/-! ## Freshness -/

/-- **Which expiries are fresh**: the sums wrap around only where the token is not fresh anyway. -/
theorem checkFreshness_eq_none {ttl skew : Nat} (httl : g.ttl = ttl * 10 ^ 9)
    (hskew : g.skew = skew * 10 ^ 9) (hwindow : ttl + skew < 2 ^ 61) (hn : t / 10 ^ 9 = n)
    (hlo : -2 ^ 62 ≤ n) (hhi : n < 2 ^ 62) (claims : Claims) :
    g.checkFreshness t claims = none ↔
      n ≤ claims.expiryUnix.toInt + skew ∧ claims.expiryUnix.toInt ≤ n + (ttl + skew) := by
  have hsum : g.ttl + g.skew = ((ttl + skew : Nat) : Int) * 10 ^ 9 := by
    rw [httl, hskew]
    push_cast
    ring
  have hs : (wholeSeconds g.skew).toInt = skew := by rw [hskew, toInt_wholeSeconds (by omega)]
  have hw : (wholeSeconds (g.ttl + g.skew)).toInt = (ttl + skew : Nat) := by
    rw [hsum, toInt_wholeSeconds hwindow]
  have hunix : (unix t).toInt = n := toInt_unix hn (by omega) (by omega)
  have hexp := claims.expiryUnix.toInt_lt
  have hexp' := claims.expiryUnix.le_toInt
  unfold checkFreshness
  simp only [gt_iff_lt, Int64.lt_iff_toInt_lt, Int64.toInt_add, hs, hw, hunix]
  generalize claims.expiryUnix.toInt = e at *
  have hmax : (n + ((ttl + skew : Nat) : Int)).bmod (2 ^ 64) = n + (ttl + skew) := by
    rw [Int.bmod_eq_of_le (by omega) (by omega)]
    push_cast
    rfl
  rw [hmax]
  by_cases hwrap : e + skew < 2 ^ 63
  · rw [Int.bmod_eq_of_le (by omega) (by omega)]
    split_ifs <;> simp <;> omega
  · -- an expiry this late is refused as expired in the source, and would be refused as too late
    have hbmod : (e + skew).bmod (2 ^ 64) = e + skew - 2 ^ 64 := by
      rw [Int.bmod_def]
      omega
    rw [hbmod, if_pos (by omega)]
    simp only [reduceCtorEq, false_iff]
    omega

/-! ## Calls that are answered one after the other -/

section
variable {σ : Type} {h : (c : Cmd) → σ → Answer Key c × σ} {s : σ}

/-- What was answered to a call of `SignClaims` that returned a token. -/
theorem signClaims_eval
    (hst : (g.signClaims tenantId blockHash endpointId).eval h s = (.ok st, s')) :
    ∃ (version : Int) (key : Key) (nonce : BitVec 128) (t : Time) (s₁ s₂ : σ),
      h (.signingKey tenantId) s = (.ok (version, key), s₁) ∧ h .randRead s₁ = (.ok nonce, s₂) ∧
      h .now s₂ = (t, s') ∧
      g.signWith key ⟨tenantId, blockHash, unix (t + g.ttl), version, endpointId,
        hexText 32 nonce.toNat⟩ = .ok st := by
  obtain ⟨a, s₁, hkey⟩ : ∃ (a : Except KmsError (Int × Key)) (s₁ : σ),
      h (.signingKey tenantId) s = (a, s₁) := ⟨_, _, rfl⟩
  match a, hkey with
  | .error e, hkey =>
    cases (eval_call hkey).symm.trans hst
  | .ok (version, key), hkey =>
    have hst : Proc.eval h (if g.mac.size key < 32 then _ else _) s₁ = (Except.ok st, s') :=
      (eval_call hkey).symm.trans hst
    split at hst
    · cases hst
    · obtain ⟨b, s₂, hrand⟩ : ∃ (b : Except String (BitVec 128)) (s₂ : σ),
          h .randRead s₁ = (b, s₂) := ⟨_, _, rfl⟩
      match b, hrand with
      | .error e, hrand => cases (eval_call hrand).symm.trans hst
      | .ok nonce, hrand =>
        have hst := (eval_call hrand).symm.trans hst
        obtain ⟨t, s₃, hnow⟩ : ∃ (t : Time) (s₃ : σ), h .now s₂ = (t, s₃) := ⟨_, _, rfl⟩
        obtain ⟨hsign, hs⟩ := Prod.mk.inj ((eval_call hnow).symm.trans hst)
        subst hs
        exact ⟨version, key, nonce, t, s₁, s₂, hkey, hrand, hnow, hsign⟩

omit g in
theorem eval_consume (nonce : List Char) (ttl : Time) (f : Except String Bool → Routine Key β) :
    (consume nonce ttl >>= f).eval h s =
      (f (h (.consume nonce ttl) s).1).eval h (h (.consume nonce ttl) s).2 :=
  rfl

omit g in
theorem eval_ownsBlock (tenantId : Uuid) (blockHash : List Char)
    (f : Except String Bool → Routine Key β) :
    (ownsBlock tenantId blockHash >>= f).eval h s =
      (f (h (.ownsBlock tenantId blockHash) s).1).eval h (h (.ownsBlock tenantId blockHash) s).2 :=
  rfl

theorem checkOwnership_eval (claims : Claims) :
    ((g.checkOwnership claims).eval h s).1 = .ok () ↔
      (g.hasOwnership = true →
        (h (.ownsBlock claims.tenantId claims.blockHash) s).1 = .ok true) := by
  unfold checkOwnership
  split
  · next hhas =>
    rw [imp_iff_right hhas, eval_ownsBlock]
    cases (h (.ownsBlock claims.tenantId claims.blockHash) s).1 with
    | error e => exact iff_of_false (by simp [eval]) (by simp)
    | ok owns =>
      cases owns with
      | false =>
        refine iff_of_false (by simp [eval]) fun hc => ?_
        cases hc
      | true => exact iff_of_true rfl rfl
  · next hhas => exact iff_of_true rfl fun hc => absurd hc hhas

/-- **When a token is redeemed**: its nonce is fresh, and the block is the tenant's where that is
asked. -/
theorem redeem_eval (claims : Claims) :
    ((g.redeem claims).eval h s).1 = .ok () ↔
      (h (.consume claims.nonceHex (g.ttl + g.skew)) s).1 = .ok true ∧
        (g.hasOwnership = true → (h (.ownsBlock claims.tenantId claims.blockHash)
          (h (.consume claims.nonceHex (g.ttl + g.skew)) s).2).1 = .ok true) := by
  unfold redeem
  rw [eval_consume]
  cases (h (.consume claims.nonceHex (g.ttl + g.skew)) s).1 with
  | error e => exact iff_of_false (by simp [eval]) (by simp)
  | ok fresh =>
    cases fresh with
    | false =>
      refine iff_of_false (by simp [eval]) fun hc => ?_
      cases hc.1
    | true => exact (g.checkOwnership_eval claims).trans (and_iff_right rfl).symm

theorem authenticate_eval (hown : g.hasOwnership = false) (tok : SignedToken Sig)
    [DecidableEq Tag] :
    ((g.authenticate tok).eval h s).1 = .ok () ↔ ∃ key s₁ s₂,
      h (.verificationKey tok.claims.tenantId tok.claims.keyVersion) s = (.ok (some key), s₁) ∧
      g.mac.decode tok.signatureHex = some (g.mac.compute key tok.claims.message) ∧
      h (.consume tok.claims.nonceHex (g.ttl + g.skew)) s₁ = (.ok true, s₂) := by
  obtain ⟨a, s₁, hkey⟩ : ∃ (a : Except KmsError (Option Key)) (s₁ : σ),
      h (.verificationKey tok.claims.tenantId tok.claims.keyVersion) s = (a, s₁) := ⟨_, _, rfl⟩
  have hev : (g.authenticate tok).eval h s = _ := eval_call hkey
  rw [hev, hkey]
  match a with
  | .error e => exact iff_of_false nofun nofun
  | .ok none => exact iff_of_false nofun nofun
  | .ok (some key) =>
    show (Proc.eval h (match g.mac.decode tok.signatureHex with | none => _ | some got => _) s₁).1 =
      Except.ok () ↔ _
    split
    · next hdec => exact iff_of_false nofun fun ⟨_, _, _, _, hd, _⟩ => nomatch hdec.symm.trans hd
    · next got hdec =>
      show (Proc.eval h (if g.mac.compute key tok.claims.message = got then _ else _) s₁).1 =
        Except.ok () ↔ _
      split
      · next hmac =>
        rw [redeem_eval, hown, and_iff_left (by simp)]
        refine ⟨fun hc => ⟨key, s₁, _, rfl, by rw [hdec, hmac], Prod.ext hc rfl⟩, ?_⟩
        rintro ⟨k, s₁', s₂, heq, -, hc⟩
        cases heq
        rw [hc]
      · next hmac =>
        refine iff_of_false nofun ?_
        rintro ⟨k, s₁', s₂, heq, hd, -⟩
        cases heq
        exact hmac (Option.some.inj (hd.symm.trans hdec))

/-- **When `Validate` accepts.** -/
theorem validate_eval (tok : SignedToken Sig) [DecidableEq Tag] :
    ((g.validate tok).eval h s).1 = .ok () ↔
      g.checkStructure tok = none ∧ g.checkFreshness (h .now s).1 tok.claims = none ∧
      ((g.authenticate tok).eval h (h .now s).2).1 = .ok () := by
  unfold validate
  split
  · next hform => exact iff_of_false nofun fun ⟨hs, _⟩ => nomatch hform.symm.trans hs
  · next hform =>
    rw [and_iff_right hform]
    show (Proc.eval h (match g.checkFreshness (h .now s).1 tok.claims with
      | some e => _ | none => _) (h .now s).2).1 = Except.ok () ↔ _
    split
    · next hfresh => exact iff_of_false nofun fun ⟨hf, _⟩ => nomatch hfresh.symm.trans hf
    · next hfresh => exact (and_iff_right hfresh).symm

end

end TokenGenerator

end Aegis.Auth
