import Aegis.Auth.Token
import Aegis.Lib.Symbolic

/-!
# Authenticity of tokens

Traces of `SignClaims`, `Rotate`, `Provision` and `Validate` calls, with a symbolic MAC and an
attacker who has seen every token issued so far and validates whatever they can build from those. A
token that is accepted carries the claims of a `SignClaims` call before it. Keys never leave the
key store, so it does not matter whether they are distinct, how they were rotated, or whether
tenants are provisioned on demand; the nonce store and the ownership checker may answer anything.
-/

namespace Aegis.Auth

open Symbolic

variable {Key : Type}

/-! ## The symbolic MAC -/

/-- What signatures are in the symbolic model. -/
abbrev Signature (Key : Type) : Type := Term Key (List Char)

/-- The MAC as a constructor. A text passes the check of the encoding if it is 64 lower-case
hexadecimal digits, but is never a MAC. -/
def symbolicMac (size : Key → Nat) : Mac Key (Signature Key) (Signature Key) where
  size := size
  compute k m := .mac (.key k) (.text m)
  encode := id
  wellFormed
    | .mac _ _ => true
    | .text t => t.length = 64 && isLowerHex t
    | _ => false
  decode := some

/-! ## What the attacker can present -/

/-- The key store and the tokens issued so far. -/
structure World (Key : Type) where
  kms : StaticKMS Key
  issued : List (SignedToken (Signature Key))

variable {w : World Key}

namespace World

/-- What the attacker has seen: every issued token, its fields with its signature. -/
def Seen (w : World Key) (t : Signature Key) : Prop :=
  ∃ st ∈ w.issued, t = .pair (.text st.claims.message) st.signatureHex

/-- The attacker sees signatures of messages only. -/
def Sound (w : World Key) : Prop :=
  ∀ st ∈ w.issued, st.claims.valid = none ∧
    ∃ k, st.signatureHex = .mac (.key k) (.text st.claims.message)

/-- What the attacker gets by taking apart what they have seen. -/
theorem Sound.of_part (hw : w.Sound) (h : Part w.Seen t) :
    w.Seen t ∨ (∃ m, t = .text m) ∨ ∃ st ∈ w.issued, t = st.signatureHex := by
  induction h with
  | seen ht => exact .inl ht
  | fst _ ih =>
    rcases ih with ⟨st, _, hpair⟩ | ⟨m, hm⟩ | ⟨st, hst, hsig⟩
    · exact .inr (.inl ⟨_, (Term.pair.inj hpair).1⟩)
    · cases hm
    · obtain ⟨-, k, hk⟩ := hw st hst
      cases hsig.trans hk
  | snd _ ih =>
    rcases ih with ⟨st, hst, hpair⟩ | ⟨m, hm⟩ | ⟨st, hst, hsig⟩
    · exact .inr (.inr ⟨st, hst, (Term.pair.inj hpair).2⟩)
    · cases hm
    · obtain ⟨-, k, hk⟩ := hw st hst
      cases hsig.trans hk

/-- No key can be taken out of what the attacker has seen. -/
theorem Sound.not_part_key (hw : w.Sound) (k : Key) : ¬ Part w.Seen (.key k) := by
  intro h
  rcases hw.of_part h with ⟨st, _, hpair⟩ | ⟨m, hm⟩ | ⟨st, hst, hsig⟩
  · cases hpair
  · cases hm
  · obtain ⟨-, k', hk'⟩ := hw st hst
    cases hsig.trans hk'

/-- A MAC the attacker can present is the signature of a token that was issued. -/
theorem Sound.issued_of_knows (hw : w.Sound) (h : Knows w.Seen (.mac (.key k) (.text m))) :
    ∃ st ∈ w.issued, st.claims.message = m := by
  have hpart := h.part_of_mac (hw.not_part_key k)
  rcases hw.of_part hpart with ⟨st, _, hpair⟩ | ⟨m, hm⟩ | ⟨st, hst, hsig⟩
  · cases hpair
  · cases hm
  · obtain ⟨-, k', hk'⟩ := hw st hst
    have hmac := hsig.trans hk'
    injection hmac with _ htext
    injection htext with hmessage
    exact ⟨st, hst, hmessage.symm⟩

end World

/-! ## Traces -/

/-- What the surroundings answer during one call: the two clocks, the entropy for a key and for a
nonce, the nonce store and the ownership checker. -/
structure Surroundings (Key : Type) where
  now : Time
  kmsNow : Time
  rawKey : Except String Key
  rawNonce : Except String (BitVec 128)
  consumed : Except String Bool
  owned : Except String Bool

/-- The answers to the calls of signing and validation. -/
def Surroundings.answer (e : Surroundings Key) :
    (c : Cmd) → StaticKMS Key → Answer Key c × StaticKMS Key
  | .now, s => (e.now, s)
  | .signingKey tenantId, s => s.signingKey e.rawKey tenantId
  | .verificationKey tenantId version, s => s.verificationKey e.kmsNow e.rawKey tenantId version
  | .randRead, s => (e.rawNonce, s)
  | .consume _ _, s => (e.consumed, s)
  | .ownsBlock _ _, s => (e.owned, s)

/-- The calls of a trace. -/
inductive Call (Key : Type)
  | signClaims (e : Surroundings Key) (tenantId : Uuid) (blockHash endpointId : List Char)
  | provision (tenantId : Uuid) (version : Int) (key : Key)
  | rotate (now : Time) (raw : Except String Key) (tenantId : Uuid)
  | validate (e : Surroundings Key) (tok : SignedToken (Signature Key))

namespace World

variable [DecidableEq Key] (g : TokenGenerator Key (Signature Key) (Signature Key))

/-- The result of signing in a world. -/
def signClaims (w : World Key) (e : Surroundings Key) (tenantId : Uuid)
    (blockHash endpointId : List Char) :
    Except AuthError (SignedToken (Signature Key)) × StaticKMS Key :=
  (g.signClaims tenantId blockHash endpointId).eval e.answer w.kms

/-- The result of validating in a world. -/
def validate (w : World Key) (e : Surroundings Key) (tok : SignedToken (Signature Key)) :
    Except AuthError Unit × StaticKMS Key :=
  (g.validate tok).eval e.answer w.kms

/-- One call. -/
def call (w : World Key) : Call Key → World Key
  | .signClaims e tenantId blockHash endpointId =>
    match w.signClaims g e tenantId blockHash endpointId with
    | (.ok st, kms) => ⟨kms, st :: w.issued⟩
    | (.error _, kms) => ⟨kms, w.issued⟩
  | .provision tenantId version key => { w with kms := w.kms.provision tenantId version key }
  | .rotate now raw tenantId => { w with kms := (w.kms.rotate now raw tenantId).2 }
  | .validate e tok => { w with kms := (w.validate g e tok).2 }

/-- A trace. -/
def run (w : World Key) (calls : List (Call Key)) : World Key := calls.foldl (call g) w

/-- Some call of the trace signed the token. -/
def SignedIn (w : World Key) (calls : List (Call Key)) (st : SignedToken (Signature Key)) : Prop :=
  ∃ before after e tenantId blockHash endpointId,
    calls = before ++ .signClaims e tenantId blockHash endpointId :: after ∧
      ((w.run g before).signClaims g e tenantId blockHash endpointId).1 = .ok st

/-! ## What was issued -/

variable {st : SignedToken (Signature Key)}

/-- A call issues nothing but the token it signs. -/
theorem mem_issued_call (h : st ∈ (w.call g c).issued) :
    st ∈ w.issued ∨ ∃ e tenantId blockHash endpointId,
      c = .signClaims e tenantId blockHash endpointId ∧
        (w.signClaims g e tenantId blockHash endpointId).1 = .ok st := by
  cases c with
  | provision | rotate | validate => exact .inl h
  | signClaims e tenantId blockHash endpointId =>
    simp only [call] at h
    split at h
    · next st' kms hsign =>
      cases h with
      | head => exact .inr ⟨e, tenantId, blockHash, endpointId, rfl, by rw [hsign]⟩
      | tail _ h => exact .inl h
    · exact .inl h

/-- **Where tokens come from**: whatever a trace issued, one of its calls signed. -/
theorem mem_issued_run (h : st ∈ (w.run g calls).issued) :
    st ∈ w.issued ∨ SignedIn g w calls st := by
  induction calls generalizing w with
  | nil => exact .inl h
  | cons c calls ih =>
    rcases ih h with hcall | ⟨before, after, e, t, b, p, rfl, hsign⟩
    · rcases mem_issued_call g hcall with hw | ⟨e, t, b, p, rfl, hsign⟩
      · exact .inl hw
      · exact .inr ⟨[], calls, e, t, b, p, rfl, hsign⟩
    · exact .inr ⟨c :: before, after, e, t, b, p, rfl, hsign⟩

variable {g}

/-- A token signed with the symbolic MAC. -/
theorem SignedIn.signature (hmac : g.mac = symbolicMac size) (h : SignedIn g w calls st) :
    st.claims.valid = none ∧ ∃ k, st.signatureHex = .mac (.key k) (.text st.claims.message) := by
  obtain ⟨before, after, e, t, b, p, -, hsign⟩ := h
  have hspec := (g.signClaims_always t b p).eval e.answer (w.run g before).kms st hsign
  rwa [hmac] at hspec

/-- **Authenticity**: after any trace, if a token whose signature the attacker can build from the
issued tokens is accepted, a call of the trace signed exactly its claims. -/
theorem claims_signed_of_accepted {size : Key → Nat} (hmac : g.mac = symbolicMac size)
    (kms : StaticKMS Key) (calls : List (Call Key)) (e : Surroundings Key)
    (tok : SignedToken (Signature Key))
    (hknows : Knows (run g ⟨kms, []⟩ calls).Seen tok.signatureHex)
    (haccepted : ((run g ⟨kms, []⟩ calls).validate g e tok).1 = .ok ()) :
    ∃ st, SignedIn g ⟨kms, []⟩ calls st ∧ st.claims = tok.claims := by
  have hsigned : ∀ st ∈ (run g ⟨kms, []⟩ calls).issued, SignedIn g ⟨kms, []⟩ calls st := by
    intro st hst
    exact (mem_issued_run g hst).resolve_left List.not_mem_nil
  have hsound : (run g ⟨kms, []⟩ calls).Sound := fun st hst => (hsigned st hst).signature hmac
  obtain ⟨hvalid, k, hsig⟩ := (g.validate_always tok).eval e.answer _ haccepted
  rw [hmac] at hsig
  have hmacTok : tok.signatureHex = .mac (.key k) (.text tok.claims.message) :=
    Option.some.inj hsig
  rw [hmacTok] at hknows
  obtain ⟨st, hst, hmessage⟩ := hsound.issued_of_knows hknows
  exact ⟨st, hsigned st hst, Claims.message_inj (hsound st hst).1 hvalid hmessage⟩

end World

/-! ## A trace with an accepted token -/

/-- A generator with 15 minutes of validity and a minute of skew; keys are numbers. -/
def sampleGenerator : TokenGenerator Nat (Signature Nat) (Signature Nat) :=
  ⟨symbolicMac fun _ => 32, 900 * 10 ^ 9, 60 * 10 ^ 9, false⟩

/-- Everything works, a thousand seconds after the epoch. -/
def sampleSurroundings : Surroundings Nat :=
  ⟨1000 * 10 ^ 9, 1000 * 10 ^ 9, .error "entropy", .ok 5, .ok true, .ok true⟩

/-- Provision a tenant, sign, and rotate the key. -/
def sampleCalls : List (Call Nat) :=
  [.provision 1 1 7, .signClaims sampleSurroundings 1 (List.replicate 64 'a') ['e'],
    .rotate (1000 * 10 ^ 9) (.ok 8) 1]

/-- The token the second call issues. -/
def sampleToken : SignedToken (Signature Nat) :=
  let claims : Claims := ⟨1, List.replicate 64 'a', 1900, 1, ['e'], hexText 32 5⟩
  ⟨claims, .mac (.key 7) (.text claims.message)⟩

/-- The token is accepted after the rotation, and was signed. -/
theorem sampleToken_signed :
    ((World.run sampleGenerator ⟨⟨∅, false⟩, []⟩ sampleCalls).validate sampleGenerator
        sampleSurroundings sampleToken).1 = .ok () ∧
      ∃ st, World.SignedIn sampleGenerator ⟨⟨∅, false⟩, []⟩ sampleCalls st ∧
        st.claims = sampleToken.claims := by
  have hissued : sampleToken ∈ (World.run sampleGenerator ⟨⟨∅, false⟩, []⟩ sampleCalls).issued := by
    decide +kernel
  have haccepted : ((World.run sampleGenerator ⟨⟨∅, false⟩, []⟩ sampleCalls).validate
      sampleGenerator sampleSurroundings sampleToken).1 = .ok () := by
    decide +kernel
  exact ⟨haccepted, World.claims_signed_of_accepted rfl _ _ _ _
    (.snd (.seen ⟨sampleToken, hissued, rfl⟩)) haccepted⟩

end Aegis.Auth
