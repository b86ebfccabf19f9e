import Aegis.Auth.Gauntlet

/-!
# Retrying after a failure of the infrastructure

A genuine token that met a failure of the infrastructure, of the key lookup, of the nonce store or
of the ownership probe, and is presented again. The first two failures leave nothing behind. The
ownership probe comes after `Consume`: when it fails, the nonce is gone, and the token is refused as
a replay until its nonce has expired in the store, `ttl + skew` later.
-/

namespace Aegis.Auth

open Proc

variable {Key Tag Sig σ : Type}

/-! ## The nonce stores -/

/-- The nonce stores of the source. -/
inductive Backend
  | redis (sha256 : List Char → Hash)
  | inMemory (maxEntries : Int)

def Backend.store : Backend → NonceStore Expiries
  | .redis sha256 => redisNonceStore sha256
  | .inMemory maxEntries => inMemoryNonceStore maxEntries

/-- How long a nonce is live once it has been consumed. -/
theorem Backend.live_consume (b : Backend) {now ttl t : Time}
    (h : (b.store.consume s now n ttl).1 = true) :
    b.store.Live (b.store.consume s now n ttl).2 t n ↔ t < now + ttl := by
  have hlive : ∀ {s' : Expiries} {k : List Char}, (s'.setNX now k (now + ttl)).1 = true →
      ((s'.setNX now k (now + ttl)).2.live t k = true ↔ t < now + ttl) := by
    intro s' k hfresh
    rw [Expiries.live, Expiries.lookup_setNX_fresh hfresh, Option.any_some, decide_eq_true_iff]
  cases b with
  | redis sha256 => exact hlive h
  | inMemory maxEntries => exact hlive h

/-! ## Tries -/

/-- A call of `Validate` on the token, with the keys as they are then. -/
structure Try (Key : Type) where
  kms : StaticKMS Key
  answers : Answers Key

/-- The answer to the key lookup. -/
def Try.key (c : Try Key) (tok : SignedToken Sig) : Except KmsError (Option Key) :=
  (c.kms.verificationKey c.answers.kmsNow c.answers.rawKey tok.claims.tenantId
    tok.claims.keyVersion).1

/-- The key lookup and the nonce store work. -/
def Try.works (c : Try Key) (tok : SignedToken Sig) : Bool :=
  (c.key tok).isOk && c.answers.fault.isNone

section
variable [DecidableEq Tag] (N : NonceStore σ) (g : TokenGenerator Key Tag Sig)
  (tok : SignedToken Sig)

/-- The result of a try, and the nonces it leaves. -/
def Try.validate (c : Try Key) (s : σ) : Except AuthError Unit × σ :=
  let (result, x) := Gate.validate N g ⟨c.kms, s⟩ c.answers tok
  (result, x.store)

/-- The nonces after tries. -/
def afterTries (s : σ) (tries : List (Try Key)) : σ :=
  tries.foldl (fun s c => (c.validate N g tok s).2) s

/-- Every try fails for the infrastructure, and a nonce store that fails stores nothing. -/
def Interrupted : σ → List (Try Key) → Prop
  | _, [] => True
  | s, c :: tries =>
    (∃ e, (c.validate N g tok s).1 = .error e ∧ e.infrastructure = true) ∧
      (∀ err, c.answers.fault ≠ some (true, err)) ∧ Interrupted (c.validate N g tok s).2 tries

end

/-- When the last try was that got as far as the ownership probe. -/
def lastProbe (tok : SignedToken Sig) (tries : List (Try Key)) : Option Time :=
  ((tries.filter fun c => c.works tok).getLast?).map fun c => c.answers.storeNow

/-! ## What a try leaves behind -/

section
variable {N : NonceStore σ} {g : TokenGenerator Key Tag Sig} {tok : SignedToken Sig} {c : Try Key}

/-- A nonce that was consumed before is no failure of the infrastructure. -/
theorem consume_of_infrastructure {x : Gate Key σ}
    (h : ((g.redeem claims).eval (a.answer N) x).1 = .error e) (hinf : e.infrastructure = true) :
    (x.consume N a claims.nonceHex (g.ttl + g.skew)).1 ≠ .ok false := by
  intro hreplay
  unfold TokenGenerator.redeem at h
  rw [TokenGenerator.eval_consume, show (a.answer N (.consume _ _) x).1 = _ from hreplay] at h
  cases h
  cases hinf

variable [DecidableEq Tag]

theorem works_of_authentic (h : tok.authentic g c.kms c.answers = true) :
    c.works tok = c.answers.fault.isNone := by
  obtain ⟨-, -, key, hkey, -⟩ := (authentic_iff g).1 h
  have hok : c.key tok = .ok (some key) := hkey
  rw [Try.works, hok]
  rfl

variable {b : Backend} {s : Expiries} {t : Time}

/-- A try that fails for the infrastructure has consumed the nonce if everything but the probe
works, and else leaves the nonces alone. -/
theorem Try.live_validate (hfail : (c.validate b.store g tok s).1 = .error e)
    (hinf : e.infrastructure = true) (hfault : ∀ err, c.answers.fault ≠ some (true, err)) :
    b.store.Live (c.validate b.store g tok s).2 t tok.claims.nonceHex ↔
      if c.works tok then t < c.answers.storeNow + (g.ttl + g.skew)
      else b.store.Live s t tok.claims.nonceHex := by
  unfold Try.validate at hfail ⊢
  cases hauth : tok.authentic g c.kms c.answers with
  | false =>
    obtain ⟨e', kms, hval, -, hkey⟩ :=
      validate_of_not_authentic (N := b.store) (x := ⟨c.kms, s⟩) g hauth
    rw [hval] at hfail ⊢
    cases hfail
    obtain ⟨err, herr⟩ := hkey hinf
    have hno : c.works tok = false := by
      rw [Try.works, show c.key tok = .error err from herr]
      rfl
    rw [hno]
    rfl
  | true =>
    rw [validate_of_authentic (x := ⟨c.kms, s⟩) g hauth] at hfail ⊢
    have hnot := consume_of_infrastructure hfail hinf
    dsimp only
    rw [redeem_snd, works_of_authentic hauth]
    unfold Gate.consume at hnot ⊢
    cases hf : c.answers.fault with
    | none =>
      rw [hf] at hnot
      rw [Option.isNone_none, if_pos rfl]
      refine b.live_consume ?_
      cases hfresh : (b.store.consume s c.answers.storeNow tok.claims.nonceHex
          (g.ttl + g.skew)).1 with
      | true => rfl
      | false => exact absurd (congrArg Except.ok hfresh) hnot
    | some fault =>
      obtain ⟨applied, err⟩ := fault
      cases applied with
      | true => exact absurd hf (hfault err)
      | false => rfl

theorem lastProbe_cons (tries : List (Try Key)) : lastProbe tok (c :: tries) =
    (lastProbe tok tries).or (if c.works tok then some c.answers.storeNow else none) := by
  unfold lastProbe
  rw [List.filter_cons]
  split
  · rw [List.getLast?_cons]
    cases (tries.filter fun c => c.works tok).getLast? <;> rfl
  · rw [Option.or_none]

/-- **The nonce after interrupted tries** is live for `ttl + skew` from the last try that got as far
as the ownership probe. -/
theorem live_afterTries (h : Interrupted b.store g tok s tries) :
    b.store.Live (afterTries b.store g tok s tries) t tok.claims.nonceHex ↔
      ((lastProbe tok tries).elim (b.store.Live s t tok.claims.nonceHex)
        fun probed => t < probed + (g.ttl + g.skew)) := by
  induction tries generalizing s with
  | nil => rfl
  | cons c tries ih =>
    obtain ⟨⟨e, hfail, hinf⟩, hfault, hrest⟩ := h
    rw [lastProbe_cons]
    refine (ih hrest).trans ?_
    cases lastProbe tok tries with
    | some probed => rfl
    | none =>
      refine (Try.live_validate hfail hinf hfault).trans ?_
      cases c.works tok <;> rfl

/-- **A genuine token can be presented again** after failures of the infrastructure exactly if the
ownership probe was not among them, or was so long ago that the nonce has expired. -/
theorem retry_accepted_iff (b : Backend) (g : TokenGenerator Key Tag Sig) (tok : SignedToken Sig)
    (s : Expiries) (hnew : ∀ t, ¬ b.store.Live s t tok.claims.nonceHex) (tries : List (Try Key))
    (htries : Interrupted b.store g tok s tries) (last : Try Key)
    (hauth : tok.authentic g last.kms last.answers = true) (hstore : last.answers.fault = none)
    (howned : g.hasOwnership = true → last.answers.owned = .ok true) :
    (last.validate b.store g tok (afterTries b.store g tok s tries)).1 = .ok () ↔
      ∀ probed ∈ lastProbe tok tries, probed + (g.ttl + g.skew) ≤ last.answers.storeNow := by
  have hlive := live_afterTries (t := last.answers.storeNow) htries
  have haccepted := validate_fst (N := b.store) (a := last.answers)
    (x := ⟨last.kms, afterTries b.store g tok s tries⟩) g tok
  rw [and_iff_right hauth, and_iff_left howned, Gate.consume, hstore, Except.ok.injEq,
    b.store.consume_fst, hlive] at haccepted
  refine haccepted.trans ?_
  cases lastProbe tok tries with
  | none => exact iff_of_true (hnew _) (by simp)
  | some probed => simp

end

/-! ## Failures one after the other -/

/-- The tenant has no keys yet, and then the nonce store fails. -/
def twoFailures : List (Try (List UInt8)) :=
  [⟨⟨∅, false⟩, answersAt 1000⟩,
    ⟨gauntletGate.kms, { answersAt 1001 with fault := some (false, "timeout") }⟩]

theorem retry_accepted_iff_twoFailures :
    ((Try.mk gauntletGate.kms (answersAt 1002)).validate (Backend.inMemory 0).store
      gauntletGenerator (gauntletToken '0') (afterTries (Backend.inMemory 0).store
        gauntletGenerator (gauntletToken '0') ∅ twoFailures)).1 = .ok () := by
  refine (retry_accepted_iff (.inMemory 0) gauntletGenerator (gauntletToken '0') ∅
    (fun t => Bool.false_ne_true) twoFailures ?_ ⟨gauntletGate.kms, answersAt 1002⟩
    (by decide +kernel) rfl fun _ => rfl).2 ?_
  · refine ⟨⟨.verificationKey (.noKeysProvisioned 1), by decide +kernel, rfl⟩, by simp [answersAt],
      ⟨.nonceUnavailable "timeout", by decide +kernel, rfl⟩, by simp, trivial⟩
  · have hnone : lastProbe (gauntletToken '0') twoFailures = none := by decide +kernel
    rw [hnone]
    simp

/-- The ownership probe fails. -/
def probeFailure : List (Try (List UInt8)) :=
  [⟨gauntletGate.kms, { answersAt 1000 with owned := .error "connection refused" }⟩]

/-- **A failed probe spends the token**: the next call, with everything working, refuses it. -/
theorem retry_refused_probeFailure :
    Interrupted (Backend.inMemory 0).store gauntletGenerator (gauntletToken '0') ∅ probeFailure ∧
      (gauntletToken '0').authentic gauntletGenerator gauntletGate.kms (answersAt 1001) = true ∧
      ((Try.mk gauntletGate.kms (answersAt 1001)).validate (Backend.inMemory 0).store
        gauntletGenerator (gauntletToken '0') (afterTries (Backend.inMemory 0).store
          gauntletGenerator (gauntletToken '0') ∅ probeFailure)).1 = .error .replay := by
  refine ⟨⟨⟨.ownershipProbe "connection refused", by decide +kernel, rfl⟩, by simp [answersAt],
    trivial⟩, by decide +kernel, by decide +kernel⟩

end Aegis.Auth
