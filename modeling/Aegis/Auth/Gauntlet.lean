import Aegis.Auth.Nonces
import Aegis.Auth.Token

/-!
# The gauntlet of `Validate`

What one call of `Validate` decides and what it leaves behind, over a key store and a nonce store in
any state. The sums of 64-bit seconds in the freshness check wrap around only where the token would
be refused anyway, so the decision is the one of exact arithmetic (`validate_accepts_iff`).

Up to the MAC a call reads only: it changes the key store by auto-provisioning, and the nonce store
not at all. So with auto-provisioning off, calls whose token is not authentic can be taken out of a
sequence and nothing else changes (`refused_calls_inert`).
-/

namespace Aegis.Auth

open Proc

variable {Key Tag Sig σ : Type}

/-! ## One call -/

/-- What the surroundings answer during one call: the clocks of the validator, of the key store and
of the nonce store, the entropy for a key, the ownership checker, and whether the nonce store fails,
with the nonce consumed or not. -/
structure Answers (Key : Type) where
  now : Time
  kmsNow : Time
  rawKey : Except String Key
  storeNow : Time
  fault : Option (Bool × String)
  owned : Except String Bool

/-- The key store and the nonce store. -/
structure Gate (Key σ : Type) where
  kms : StaticKMS Key
  store : σ

/-- The error is one of the infrastructure: of the key lookup, the nonce store or the ownership
probe. -/
def AuthError.infrastructure : AuthError → Bool
  | .verificationKey _ => true
  | .nonceUnavailable _ => true
  | .ownershipProbe _ => true
  | _ => false

/-- `Consume`. -/
def Gate.consume (N : NonceStore σ) (x : Gate Key σ) (a : Answers Key) (nonce : List Char)
    (ttl : Time) : Except String Bool × Gate Key σ :=
  let (fresh, store) := N.consume x.store a.storeNow nonce ttl
  match a.fault with
  | none => (.ok fresh, { x with store := store })
  | some (true, err) => (.error err, { x with store := store })
  | some (false, err) => (.error err, x)

/-- The answers to the calls of validation, which reads no entropy and asks for no signing key. -/
def Answers.answer (N : NonceStore σ) (a : Answers Key) :
    (c : Cmd) → Gate Key σ → Answer Key c × Gate Key σ
  | .now, x => (a.now, x)
  | .signingKey tenantId, x => (.error (.noKeysProvisioned tenantId), x)
  | .verificationKey tenantId version, x =>
    let (r, kms) := x.kms.verificationKey a.kmsNow a.rawKey tenantId version
    (r, { x with kms := kms })
  | .randRead, x => (.error "not asked for", x)
  | .consume nonce ttl, x => x.consume N a nonce ttl
  | .ownsBlock _ _, x => (a.owned, x)

/-- `Validate` at a gate. -/
def Gate.validate [DecidableEq Tag] (N : NonceStore σ) (g : TokenGenerator Key Tag Sig)
    (x : Gate Key σ) (a : Answers Key) (tok : SignedToken Sig) :
    Except AuthError Unit × Gate Key σ :=
  (g.validate tok).eval (a.answer N) x

section
variable {N : NonceStore σ} {a : Answers Key} {x : Gate Key σ} {β : Type}

theorem eval_now (f : Time → Routine Key β) :
    (now >>= f).eval (a.answer N) x = (f a.now).eval (a.answer N) x :=
  rfl

theorem eval_verificationKey (tenantId : Uuid) (version : Int)
    (f : Except KmsError (Option Key) → Routine Key β) :
    (verificationKey tenantId version >>= f).eval (a.answer N) x =
      (f (x.kms.verificationKey a.kmsNow a.rawKey tenantId version).1).eval (a.answer N)
        { x with kms := (x.kms.verificationKey a.kmsNow a.rawKey tenantId version).2 } :=
  rfl

theorem consume_kms (nonce : List Char) (ttl : Time) : (x.consume N a nonce ttl).2.kms = x.kms := by
  unfold Gate.consume
  dsimp only
  split
  · rfl
  · rfl
  · rfl

/-- What `Consume` answers does not depend on the keys. -/
theorem consume_fst_kms (kms : StaticKMS Key) (nonce : List Char) (ttl : Time) :
    (Gate.consume N { x with kms := kms } a nonce ttl).1 = (x.consume N a nonce ttl).1 := by
  unfold Gate.consume
  dsimp only
  split
  · rfl
  · rfl
  · rfl

end

/-! ## After the MAC -/

section
variable (g : TokenGenerator Key Tag Sig) {N : NonceStore σ} {a : Answers Key} {x : Gate Key σ}

theorem checkOwnership_snd (claims : Claims) :
    ((g.checkOwnership claims).eval (a.answer N) x).2 = x := by
  unfold TokenGenerator.checkOwnership
  split
  · rw [TokenGenerator.eval_ownsBlock]
    cases (a.answer N (.ownsBlock claims.tenantId claims.blockHash) x).1 with
    | error e => rfl
    | ok owns => cases owns <;> rfl
  · rfl

theorem redeem_fst (claims : Claims) :
    ((g.redeem claims).eval (a.answer N) x).1 = .ok () ↔
      (x.consume N a claims.nonceHex (g.ttl + g.skew)).1 = .ok true ∧
        (g.hasOwnership = true → a.owned = .ok true) :=
  g.redeem_eval claims

theorem redeem_snd (claims : Claims) :
    ((g.redeem claims).eval (a.answer N) x).2 =
      (x.consume N a claims.nonceHex (g.ttl + g.skew)).2 := by
  unfold TokenGenerator.redeem
  rw [TokenGenerator.eval_consume]
  cases (a.answer N (.consume claims.nonceHex (g.ttl + g.skew)) x).1 with
  | error e => rfl
  | ok fresh =>
    cases fresh with
    | false => rfl
    | true => exact checkOwnership_snd g claims

/-! ## Up to the MAC -/

variable [DecidableEq Tag]

/-- The token gets through the first four stages: structure, freshness, key and MAC. -/
def SignedToken.authentic (kms : StaticKMS Key) (a : Answers Key) (tok : SignedToken Sig) : Bool :=
  (g.checkStructure tok).isNone && (g.checkFreshness a.now tok.claims).isNone &&
    match (kms.verificationKey a.kmsNow a.rawKey tok.claims.tenantId tok.claims.keyVersion).1 with
    | .ok (some key) => g.mac.decode tok.signatureHex = some (g.mac.compute key tok.claims.message)
    | _ => false

theorem authentic_iff :
    tok.authentic g kms a = true ↔
      g.checkStructure tok = none ∧ g.checkFreshness a.now tok.claims = none ∧ ∃ key,
        (kms.verificationKey a.kmsNow a.rawKey tok.claims.tenantId tok.claims.keyVersion).1 =
            .ok (some key) ∧
          g.mac.decode tok.signatureHex = some (g.mac.compute key tok.claims.message) := by
  unfold SignedToken.authentic
  rw [Bool.and_eq_true, Bool.and_eq_true, Option.isNone_iff_eq_none, Option.isNone_iff_eq_none,
    and_assoc]
  refine and_congr_right fun _ => and_congr_right fun _ => ?_
  split
  · next key hkey =>
    rw [decide_eq_true_iff]
    constructor
    · exact fun h => ⟨key, hkey, h⟩
    · rintro ⟨key', heq, h⟩
      cases hkey.symm.trans heq
      exact h
  · next hkey =>
    refine iff_of_false Bool.false_ne_true ?_
    rintro ⟨key, heq, -⟩
    exact hkey key heq

omit [DecidableEq Tag] in
theorem infrastructure_checkFreshness (h : g.checkFreshness t claims = some e) :
    e.infrastructure = false := by
  unfold TokenGenerator.checkFreshness at h
  split at h
  · cases h
    rfl
  · split at h
    · cases h
      rfl
    · cases h

/-- **An authentic token is redeemed.** -/
theorem validate_of_authentic (h : tok.authentic g x.kms a = true) :
    x.validate N g a tok = (g.redeem tok.claims).eval (a.answer N) { x with kms :=
      (x.kms.verificationKey a.kmsNow a.rawKey tok.claims.tenantId tok.claims.keyVersion).2 } := by
  obtain ⟨hform, hfresh, key, hkey, hmac⟩ := (authentic_iff g).1 h
  rw [Gate.validate, TokenGenerator.validate, hform]
  dsimp only
  rw [eval_now, hfresh]
  dsimp only
  rw [TokenGenerator.authenticate, eval_verificationKey, hkey]
  dsimp only
  rw [hmac]
  dsimp only
  rw [if_pos rfl]

/-- **A token that is not authentic is refused**, and the key store is all that may change. If that
is for the infrastructure, the key lookup failed. -/
theorem validate_of_not_authentic (h : tok.authentic g x.kms a = false) :
    ∃ e kms, x.validate N g a tok = (.error e, { x with kms := kms }) ∧
      (kms = x.kms ∨ kms =
        (x.kms.verificationKey a.kmsNow a.rawKey tok.claims.tenantId tok.claims.keyVersion).2) ∧
      (e.infrastructure = true → ∃ err,
        (x.kms.verificationKey a.kmsNow a.rawKey tok.claims.tenantId tok.claims.keyVersion).1 =
          .error err) := by
  have hnot := mt (authentic_iff g).2 (Bool.eq_false_iff.1 h)
  rw [Gate.validate, TokenGenerator.validate]
  cases hform : g.checkStructure tok with
  | some m => exact ⟨_, x.kms, rfl, .inl rfl, by simp [AuthError.infrastructure]⟩
  | none =>
    dsimp only
    rw [eval_now]
    cases hfresh : g.checkFreshness a.now tok.claims with
    | some e =>
      refine ⟨e, x.kms, rfl, .inl rfl, fun hinf => ?_⟩
      rw [infrastructure_checkFreshness g hfresh] at hinf
      cases hinf
    | none =>
      dsimp only
      rw [TokenGenerator.authenticate, eval_verificationKey]
      cases hkey : (x.kms.verificationKey a.kmsNow a.rawKey tok.claims.tenantId
          tok.claims.keyVersion).1 with
      | error e => exact ⟨_, _, rfl, .inr rfl, fun _ => ⟨e, rfl⟩⟩
      | ok found =>
        cases found with
        | none => exact ⟨_, _, rfl, .inr rfl, by simp [AuthError.infrastructure]⟩
        | some key =>
          dsimp only
          cases hdec : g.mac.decode tok.signatureHex with
          | none => exact ⟨_, _, rfl, .inr rfl, by simp [AuthError.infrastructure]⟩
          | some got =>
            have hne : g.mac.compute key tok.claims.message ≠ got := by
              rintro rfl
              exact hnot ⟨hform, hfresh, key, hkey, hdec⟩
            dsimp only
            rw [if_neg hne]
            exact ⟨_, _, rfl, .inr rfl, by simp [AuthError.infrastructure]⟩

/-- **When `Validate` accepts**: the token is authentic, its nonce is consumed and the block is the
tenant's. -/
theorem validate_fst (tok : SignedToken Sig) :
    (x.validate N g a tok).1 = .ok () ↔ tok.authentic g x.kms a = true ∧
      (x.consume N a tok.claims.nonceHex (g.ttl + g.skew)).1 = .ok true ∧
        (g.hasOwnership = true → a.owned = .ok true) := by
  cases hauth : tok.authentic g x.kms a with
  | true =>
    rw [validate_of_authentic g hauth, redeem_fst, and_iff_right rfl, consume_fst_kms]
  | false =>
    obtain ⟨e, kms, hval, -, -⟩ := validate_of_not_authentic (N := N) g hauth
    rw [hval]
    exact iff_of_false (by simp) (by simp)

end

/-! ## The decision -/

/-- The grammars of the fields of a token. -/
structure Claims.Grammatical (c : Claims) : Prop where
  blockHash : c.blockHash.length = 64 ∧ ∀ ch ∈ c.blockHash, isLowerHexDigit ch = true
  endpointId : 1 ≤ c.endpointId.length ∧ c.endpointId.length ≤ 64 ∧
    ∀ ch ∈ c.endpointId, isEndpointChar ch = true
  keyVersion : 1 ≤ c.keyVersion ∧ c.keyVersion ≤ 1000000
  nonceHex : c.nonceHex.length = 32 ∧ ∀ ch ∈ c.nonceHex, isLowerHexDigit ch = true

/-- The checks are the grammars. -/
theorem Claims.valid_iff_grammatical {c : Claims} : c.valid = none ↔ c.Grammatical := by
  have hlen : c.endpointId ≠ [] ↔ 1 ≤ c.endpointId.length := List.length_pos_iff.symm
  rw [Claims.valid_iff, hlen]
  simp only [isLowerHex, isEndpointSafe, List.all_eq_true]
  constructor
  · rintro ⟨hb, hb', he, he', he'', hk, hk', hn, hn'⟩
    exact ⟨⟨hb, hb'⟩, ⟨he, he', he''⟩, ⟨hk, hk'⟩, hn, hn'⟩
  · rintro ⟨⟨hb, hb'⟩, ⟨he, he', he''⟩, ⟨hk, hk'⟩, hn, hn'⟩
    exact ⟨hb, hb', he, he', he'', hk, hk', hn, hn'⟩

/-- The version is active for the tenant, with this key. -/
def StaticKMS.ActiveKey (s : StaticKMS Key) (now : Time) (tenantId : Uuid) (version : Int)
    (key : Key) : Prop :=
  ∃ tk r, s.tenants.lookup tenantId = some tk ∧ tk.versions.lookup version = some r ∧
    r.active now = true ∧ r.key = key

/-- `VerificationKey` answers with the active key of the store it leaves: a tenant without keys may
have got some. -/
theorem verificationKey_fst (s : StaticKMS Key) (now : Time) (raw : Except String Key)
    (tenantId : Uuid) (version : Int) (key : Key) :
    (s.verificationKey now raw tenantId version).1 = .ok (some key) ↔
      (s.verificationKey now raw tenantId version).2.ActiveKey now tenantId version key := by
  have hactive : ∀ {t : StaticKMS Key} {tk : TenantKeys Key},
      t.tenants.lookup tenantId = some tk →
      ((Except.ok (((tk.versions.lookup version).filter fun r => r.active now).map
        KeyRecord.key) : Except KmsError (Option Key)) = .ok (some key) ↔
      t.ActiveKey now tenantId version key) := by
    intro t tk htk
    rw [Except.ok.injEq, Option.map_eq_some_iff]
    simp only [Option.filter_eq_some_iff]
    constructor
    · rintro ⟨r, ⟨hr, hact⟩, hk⟩
      exact ⟨tk, r, htk, hr, hact, hk⟩
    · rintro ⟨tk', r, htk', hr, hact, hk⟩
      cases htk.symm.trans htk'
      exact ⟨r, ⟨hr, hact⟩, hk⟩
  have hnone : ∀ {t : StaticKMS Key} {e : KmsError}, t.tenants.lookup tenantId = none →
      ((Except.error e : Except KmsError (Option Key)) = .ok (some key) ↔
      t.ActiveKey now tenantId version key) := by
    intro t e ht
    refine iff_of_false (by simp) ?_
    rintro ⟨tk, r, htk, -⟩
    cases ht.symm.trans htk
  unfold StaticKMS.verificationKey StaticKMS.tenantKeys
  cases hs : s.tenants.lookup tenantId with
  | some tk => exact hactive hs
  | none =>
    dsimp only
    cases s.autoProvision with
    | false => exact hnone hs
    | true =>
      rw [if_pos rfl]
      cases raw with
      | error e => exact hnone hs
      | ok raw => exact hactive (AList.lookup_insert _)

/-- The form of a token with the MAC of the source. -/
theorem checkStructure_hexMac {g : TokenGenerator (List UInt8) (List UInt8) (List Char)}
    (hg : g.mac = hexMac hmac) :
    g.checkStructure tok = none ↔ tok.claims.Grammatical ∧
      tok.signatureHex.length = 64 ∧ ∀ ch ∈ tok.signatureHex, isLowerHexDigit ch = true := by
  have hsig : g.mac.wellFormed tok.signatureHex = true ↔ tok.signatureHex.length = 64 ∧
      ∀ ch ∈ tok.signatureHex, isLowerHexDigit ch = true := by
    rw [hg]
    simp only [hexMac, isLowerHex, Bool.and_eq_true, decide_eq_true_eq, List.all_eq_true]
  rw [← Claims.valid_iff_grammatical, ← hsig, TokenGenerator.checkStructure]
  cases tok.claims.valid with
  | some m => exact iff_of_false (by simp) (by simp)
  | none =>
    rw [and_iff_right rfl]
    dsimp only
    split
    · next h => exact iff_of_true rfl h
    · next h => exact iff_of_false (by simp) h

/-- **The decision of `Validate`**, in exact arithmetic. A token whose expiry wraps around is not
accepted. -/
theorem validate_accepts_iff (hmac : Hmac)
    (g : TokenGenerator (List UInt8) (List UInt8) (List Char)) (hg : g.mac = hexMac hmac)
    (ttl skew : Nat) (httl : g.ttl = ttl * 10 ^ 9) (hskew : g.skew = skew * 10 ^ 9)
    (hwindow : ttl + skew < 2 ^ 33) (N : NonceStore σ) (x : Gate (List UInt8) σ)
    (a : Answers (List UInt8)) (now : Int) (hnow : a.now / 10 ^ 9 = now) (hlo : 0 ≤ now)
    (hhi : now < 2 ^ 62) (tok : SignedToken (List Char)) :
    ((x.validate N g a tok).1 = .ok () ↔
      (tok.claims.Grammatical ∧ tok.signatureHex.length = 64 ∧
        ∀ ch ∈ tok.signatureHex, isLowerHexDigit ch = true) ∧
      (now - skew ≤ tok.claims.expiryUnix.toInt ∧
        tok.claims.expiryUnix.toInt ≤ now + ttl + skew) ∧
      (∃ key, (x.kms.verificationKey a.kmsNow a.rawKey tok.claims.tenantId
          tok.claims.keyVersion).2.ActiveKey a.kmsNow tok.claims.tenantId tok.claims.keyVersion
            key ∧
        decodeString tok.signatureHex = some (hmac key tok.claims.message).toList) ∧
      (x.consume N a tok.claims.nonceHex (g.ttl + g.skew)).1 = .ok true ∧
      (g.hasOwnership = true → a.owned = .ok true)) ∧
    (2 ^ 63 ≤ tok.claims.expiryUnix.toInt + skew → (x.validate N g a tok).1 ≠ .ok ()) := by
  have hfresh : g.checkFreshness a.now tok.claims = none ↔
      now - skew ≤ tok.claims.expiryUnix.toInt ∧
        tok.claims.expiryUnix.toInt ≤ now + ttl + skew := by
    rw [g.checkFreshness_eq_none httl hskew (by omega) hnow (by omega) hhi]
    omega
  have hdecision := validate_fst g (N := N) (a := a) (x := x) tok
  rw [authentic_iff, checkStructure_hexMac hg, hfresh] at hdecision
  simp only [verificationKey_fst] at hdecision
  rw [hg] at hdecision
  constructor
  · rw [hdecision]
    simp only [and_assoc]
    rfl
  · intro hwrap hok
    have hle := (hdecision.1 hok).1.2.1.2
    omega

/-- A validator with an ownership checker; the MAC is the same for every message. -/
def gauntletGenerator : TokenGenerator (List UInt8) (List UInt8) (List Char) :=
  ⟨hexMac fun _ _ => .replicate 32 0, 900 * 10 ^ 9, 60 * 10 ^ 9, true⟩

/-- A tenant with one key, and no nonce consumed. -/
def gauntletGate : Gate (List UInt8) Expiries :=
  ⟨StaticKMS.provision ⟨∅, false⟩ 1 1 [7], ∅⟩

/-- Everything works, a number of seconds after the epoch. -/
def answersAt (second : Int) : Answers (List UInt8) :=
  ⟨second * 10 ^ 9, second * 10 ^ 9, .error "entropy", second * 10 ^ 9, none, .ok true⟩

/-- A token of the tenant, with a signature of one digit. -/
def gauntletToken (digit : Char) : SignedToken (List Char) :=
  ⟨⟨1, List.replicate 64 'a', 1900, 1, ['e'], hexText 32 5⟩, List.replicate 64 digit⟩

theorem validate_accepts_iff_gauntletToken :
    (gauntletGate.validate (inMemoryNonceStore 0) gauntletGenerator (answersAt 1000)
        (gauntletToken '0')).1 = .ok () ∧
      (gauntletToken '0').claims.Grammatical ∧
      decodeString (gauntletToken '0').signatureHex =
        some (Vector.replicate 32 (0 : UInt8)).toList := by
  have haccepted : (gauntletGate.validate (inMemoryNonceStore 0) gauntletGenerator
      (answersAt 1000) (gauntletToken '0')).1 = .ok () := by
    decide +kernel
  have hdecision := validate_accepts_iff (fun _ _ => .replicate 32 0) gauntletGenerator rfl 900 60
    rfl rfl (by decide) (inMemoryNonceStore 0) gauntletGate (answersAt 1000) 1000 (by decide)
    (by decide) (by decide) (gauntletToken '0')
  obtain ⟨⟨hform, -⟩, -, ⟨key, -, hmac⟩, -⟩ := hdecision.1.1 haccepted
  exact ⟨haccepted, hform, hmac⟩

/-! ## Calls one after the other -/

section
variable [DecidableEq Tag] (N : NonceStore σ) (g : TokenGenerator Key Tag Sig)

/-- Calls one after the other, each with its result. -/
def Gate.results : Gate Key σ → List (SignedToken Sig × Answers Key) →
    List ((SignedToken Sig × Answers Key) × Except AuthError Unit)
  | _, [] => []
  | x, (tok, a) :: calls =>
    ((tok, a), (x.validate N g a tok).1) :: (x.validate N g a tok).2.results calls

/-- The stores after calls. -/
def Gate.after : Gate Key σ → List (SignedToken Sig × Answers Key) → Gate Key σ
  | x, [] => x
  | x, (tok, a) :: calls => (x.validate N g a tok).2.after calls

variable {N g} {x : Gate Key σ} {a : Answers Key}

theorem verificationKey_of_off {s : StaticKMS Key} (h : s.autoProvision = false) (now : Time)
    (raw : Except String Key) (tenantId : Uuid) (version : Int) :
    (s.verificationKey now raw tenantId version).2 = s := by
  unfold StaticKMS.verificationKey StaticKMS.tenantKeys
  cases s.tenants.lookup tenantId with
  | some tk => rfl
  | none =>
    rw [h]
    rfl

/-- Without auto-provisioning a refused call leaves nothing behind. -/
theorem validate_refused (hoff : x.kms.autoProvision = false)
    (h : tok.authentic g x.kms a = false) : (x.validate N g a tok).2 = x := by
  obtain ⟨e, kms, hval, hkms, -⟩ := validate_of_not_authentic (N := N) g h
  rw [verificationKey_of_off hoff, or_self] at hkms
  rw [hval, hkms]

/-- Without auto-provisioning the key store stays as it is. -/
theorem validate_kms (hoff : x.kms.autoProvision = false) (tok : SignedToken Sig) :
    (x.validate N g a tok).2.kms = x.kms := by
  cases h : tok.authentic g x.kms a with
  | false => rw [validate_refused hoff h]
  | true => rw [validate_of_authentic g h, redeem_snd, consume_kms, verificationKey_of_off hoff]

/-- **Refused calls change nothing**: without them, the stores end up the same and every other call
returns the same. -/
theorem refused_calls_inert (N : NonceStore σ) (g : TokenGenerator Key Tag Sig) (x : Gate Key σ)
    (hoff : x.kms.autoProvision = false) (calls : List (SignedToken Sig × Answers Key)) :
    x.after N g (calls.filter fun c => c.1.authentic g x.kms c.2) = x.after N g calls ∧
      x.results N g (calls.filter fun c => c.1.authentic g x.kms c.2) =
        (x.results N g calls).filter fun r => r.1.1.authentic g x.kms r.1.2 := by
  generalize hkms : x.kms = kms
  rw [hkms] at hoff
  induction calls generalizing x with
  | nil => exact ⟨rfl, rfl⟩
  | cons c calls ih =>
    obtain ⟨tok, a⟩ := c
    subst hkms
    cases h : tok.authentic g x.kms a with
    | true =>
      obtain ⟨hafter, hresults⟩ := ih (x.validate N g a tok).2 (validate_kms hoff tok)
      rw [List.filter_cons, if_pos h, Gate.results, Gate.results, List.filter_cons, if_pos h]
      exact ⟨hafter, congrArg _ hresults⟩
    | false =>
      have hsame : (x.validate N g a tok).2 = x := validate_refused hoff h
      have hskip : ¬ tok.authentic g x.kms a = true := Bool.eq_false_iff.1 h
      rw [List.filter_cons, if_neg hskip, Gate.results, List.filter_cons, if_neg hskip, Gate.after,
        hsame]
      exact ih x rfl

end

/-- A guess with the nonce of a token, the token itself, and the token again. -/
def guessFirst : List (SignedToken (List Char) × Answers (List UInt8)) :=
  [(gauntletToken '1', answersAt 999), (gauntletToken '0', answersAt 1000),
    (gauntletToken '0', answersAt 1001)]

theorem refused_calls_inert_guessFirst :
    (gauntletGate.results (inMemoryNonceStore 0) gauntletGenerator guessFirst).map Prod.snd =
        [.error .badSignature, .ok (), .error .replay] ∧
      gauntletGate.after (inMemoryNonceStore 0) gauntletGenerator
          (guessFirst.filter fun c => c.1.authentic gauntletGenerator gauntletGate.kms c.2) =
        gauntletGate.after (inMemoryNonceStore 0) gauntletGenerator guessFirst := by
  refine ⟨by decide +kernel, ?_⟩
  exact (refused_calls_inert (inMemoryNonceStore 0) gauntletGenerator gauntletGate rfl guessFirst).1

end Aegis.Auth
