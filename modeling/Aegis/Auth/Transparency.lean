import Aegis.Auth.Rotation
import Aegis.Auth.SingleUse

/-!
# Rotation is transparent

A signer, a validator and their key store on one clock, serving calls one after the other. A token
that `SignClaims` returns names the version that is current then. Rotations supersede this version
later, if at all, and it verifies for seven days from there, longer than the token lives; and a
version number does not come back before `int` has run through all its values. So the first
`Validate` of the token accepts, however many rotations there were in between.
-/

namespace Aegis.Auth

open Proc

variable {σ : Type}

/-! ## Nonce stores that keep nonces apart -/

/-- The form of a nonce in valid claims. -/
def IsNonce (n : List Char) : Prop := n.length = 32 ∧ isLowerHex n = true

/-- Consuming a nonce makes no other one live. -/
def NonceStore.Exact (N : NonceStore σ) : Prop :=
  ∀ s now n ttl t m, now ≤ t → IsNonce n → IsNonce m → m ≠ n →
    N.Live (N.consume s now n ttl).2 t m → N.Live s t m

variable {now t : Time}

theorem Expiries.live_of_setNX {s : Expiries} (hne : k' ≠ k)
    (h : (s.setNX now k exp).2.live t k' = true) : s.live t k' = true := by
  unfold setNX at h
  split at h
  · exact h
  · rwa [live_insert, if_neg hne] at h

theorem inMemoryNonceStore_exact (maxEntries : Int) : (inMemoryNonceStore maxEntries).Exact := by
  intro s now n ttl t m hle _ _ hne h
  have h := Expiries.live_of_setNX hne h
  split at h
  · rwa [Expiries.live_sweep hle] at h
  · exact h

/-- The Redis store keeps apart nonces whose digests are different. -/
theorem redisNonceStore_exact (hinj : ∀ n m, IsNonce n → IsNonce m →
      sha256 (nonceKeyPrefix ++ n) = sha256 (nonceKeyPrefix ++ m) → n = m) :
    (redisNonceStore sha256).Exact := by
  intro s now n ttl t m _ hn hm hne h
  refine Expiries.live_of_setNX (fun heq => hne ?_) h
  have hdigest := hexText_inj (k := 64) (by exact (sha256 _).isLt) (by exact (sha256 _).isLt)
    (List.append_cancel_left heq)
  exact hinj m n hm hn (BitVec.eq_of_toNat_eq hdigest)

/-! ## Signer, validator and key store on one clock -/

/-- The key store, the nonce store and the clock. -/
structure Origin (σ : Type) where
  kms : StaticKMS (List UInt8)
  store : σ
  clock : Time

/-- The calls, with what the entropy source returns. -/
inductive Request
  | provision (tenantId : Uuid) (version : Int) (key : List UInt8)
  | rotate (raw : Except String (List UInt8)) (tenantId : Uuid)
  | signClaims (rawKey : Except String (List UInt8)) (rawNonce : Except String (BitVec 128))
      (tenantId : Uuid) (blockHash endpointId : List Char)
  | validate (rawKey : Except String (List UInt8)) (tok : SignedToken (List Char))

/-- The request provisions the tenant. -/
def Request.provisions (tenantId : Uuid) : Request → Prop
  | .provision tenantId' _ _ => tenantId' = tenantId
  | _ => False

/-- The request rotates the keys of the tenant. -/
def Request.rotates (tenantId : Uuid) : Request → Bool
  | .rotate _ tenantId' => tenantId' = tenantId
  | _ => false

/-- The request validates a token with the nonce. -/
def Request.presents (nonce : List Char) : Request → Prop
  | .validate _ tok => tok.claims.nonceHex = nonce
  | _ => False

namespace Origin

variable (N : NonceStore σ) (g : TokenGenerator (List UInt8) (List UInt8) (List Char))

/-- What signing and validation are answered. There is no ownership checker to ask. -/
def answer (rawKey : Except String (List UInt8)) (rawNonce : Except String (BitVec 128)) :
    (c : Cmd) → Origin σ → Answer (List UInt8) c × Origin σ
  | .now, x => (x.clock, x)
  | .signingKey tenantId, x =>
    let (r, kms) := x.kms.signingKey rawKey tenantId
    (r, { x with kms := kms })
  | .verificationKey tenantId version, x =>
    let (r, kms) := x.kms.verificationKey x.clock rawKey tenantId version
    (r, { x with kms := kms })
  | .randRead, x => (rawNonce, x)
  | .consume nonce ttl, x =>
    let (fresh, store) := N.consume x.store x.clock nonce ttl
    (.ok fresh, { x with store := store })
  | .ownsBlock _ _, x => (.error "no ownership checker", x)

/-- `SignClaims` at the time of the clock. -/
def signClaims (rawKey : Except String (List UInt8)) (rawNonce : Except String (BitVec 128))
    (tenantId : Uuid) (blockHash endpointId : List Char) (x : Origin σ) :
    Except AuthError (SignedToken (List Char)) × Origin σ :=
  (g.signClaims tenantId blockHash endpointId).eval (answer N rawKey rawNonce) x

/-- `Validate` at the time of the clock. -/
def validate (rawKey : Except String (List UInt8)) (tok : SignedToken (List Char)) (x : Origin σ) :
    Except AuthError Unit × Origin σ :=
  (g.validate tok).eval (answer N rawKey (.error "not asked for")) x

/-- What is left after a call. -/
def serve (x : Origin σ) : Request → Origin σ
  | .provision tenantId version key => { x with kms := x.kms.provision tenantId version key }
  | .rotate raw tenantId => { x with kms := (x.kms.rotate x.clock raw tenantId).2 }
  | .signClaims rawKey rawNonce tenantId blockHash endpointId =>
    (x.signClaims N g rawKey rawNonce tenantId blockHash endpointId).2
  | .validate rawKey tok => (x.validate N g rawKey tok).2

/-- The clock shows `t`. -/
def atTime (x : Origin σ) (t : Time) : Origin σ := { x with clock := t }

/-- A call at its instant; the clock does not run backwards. -/
def step (x : Origin σ) : Time × Request → Option (Origin σ)
  | (t, r) => if t < x.clock then none else some ((x.atTime t).serve N g r)

end Origin

/-! ## The calls and what they consume -/

/-- Nothing but the nonce is consumed. -/
def Consumes (nonce : List Char) (c : Cmd) : Prop := ∀ n d, c = .consume n d → n = nonce

variable {Key : Type} {nonce : List Char}

theorem Spent.issues (h : Spent p) : p.Issues (Consumes nonce) := by
  induction p with
  | ret r => trivial
  | call c next ih => exact ⟨fun n d hc => absurd hc (h.1 n d), fun a => ih a (h.2 a)⟩

theorem Unspent.issues (h : Unspent nonce ttl p) : p.Issues (Consumes nonce) := by
  induction p with
  | ret r => trivial
  | call c next ih =>
    by_cases hc : ∃ n d, c = .consume n d
    · obtain ⟨n, d, rfl⟩ := hc
      obtain ⟨rfl, -, hspent, hunspent⟩ := h
      refine ⟨fun n' d' heq => (Cmd.consume.inj heq).1.symm, fun a => ?_⟩
      by_cases ha : a = .ok true
      · rw [ha]
        exact hspent.issues
      · exact ih a (hunspent a ha)
    · have hc : ∀ n d, c ≠ .consume n d := fun n d heq => hc ⟨n, d, heq⟩
      exact ⟨fun n d heq => absurd heq (hc n d), fun a => ih a (h.next hc a)⟩

/-- Signing consumes nothing. -/
theorem signClaims_issues (g : TokenGenerator Key Tag Sig) (tenantId : Uuid)
    (blockHash endpointId : List Char) :
    (g.signClaims tenantId blockHash endpointId).Issues fun c => ∀ n d, c ≠ .consume n d := by
  refine ⟨nofun, fun a => ?_⟩
  match a with
  | .error e => trivial
  | .ok (version, key) =>
    show Issues _ (if g.mac.size key < 32 then _ else _)
    split
    · trivial
    · refine ⟨nofun, fun b => ?_⟩
      match b with
      | .error e => trivial
      | .ok nonce => exact ⟨nofun, fun t => trivial⟩

/-! ## The keys of a tenant -/

/-- A tenant's keys hold `key` under `v`, which was not superseded before `t`, and at most `j`
rotations lie between `v` and the current version. -/
structure Carries (v : Int) (key : List UInt8) (t : Time) (j : Nat) (tk : TenantKeys (List UInt8)) :
    Prop where
  record : ∃ r, tk.versions.lookup v = some r ∧ r.key = key ∧ ∀ τ, r.supersededAt = some τ → t ≤ τ
  rotations : ∃ i : Nat, i ≤ j ∧ (tk.current - v - i) % 2 ^ 64 = 0

variable {v : Int} {j : Nat} {key : List UInt8} {tk : TenantKeys (List UInt8)}

theorem currentRecord_eq (h : tk.versions.lookup tk.current = some r) : tk.currentRecord = r := by
  unfold TenantKeys.currentRecord
  simp only [h, Option.get_some]

/-- **One rotation** later the version is still there. -/
theorem Carries.rotated (h : Carries v key t j tk) (hj : j + 1 < 2 ^ 64) (hle : t ≤ now)
    (key' : List UInt8) : Carries v key t (j + 1) (tk.rotated now key') := by
  obtain ⟨r, hr, hkey, hsup⟩ := h.record
  obtain ⟨i, hi, hmod⟩ := h.rotations
  -- a version number does not come back before all others have been used
  obtain ⟨hne, hmod'⟩ : v ≠ nextVersion tk.current ∧
      (nextVersion tk.current - v - (i + 1 : Nat)) % 2 ^ 64 = 0 := by
    unfold nextVersion maxInt
    split <;> omega
  refine ⟨?_, i + 1, Nat.succ_le_succ hi, hmod'⟩
  rw [TenantKeys.rotated, TenantKeys.lookup_activate, if_neg hne, Table.lookup_insert_eq]
  by_cases hcur : v = tk.current
  · subst hcur
    rw [if_pos rfl, currentRecord_eq hr]
    refine ⟨_, rfl, hkey, fun τ hτ => ?_⟩
    simp only [stamp] at hτ
    split at hτ
    · cases hτ
    · cases hτ
      exact hle
  · rw [if_neg hcur]
    exact ⟨r, hr, hkey, hsup⟩

namespace Origin

variable {N : NonceStore σ} {g : TokenGenerator (List UInt8) (List UInt8) (List Char)}
  {x x' : Origin σ} {tenantId : Uuid}

/-- The keys of a tenant that has some are not touched by looking keys up. -/
theorem answer_keys (rawKey : Except String (List UInt8)) (rawNonce : Except String (BitVec 128))
    (c : Cmd) (htk : x.kms.tenants.lookup tenantId = some tk) :
    (answer N rawKey rawNonce c x).2.kms.tenants.lookup tenantId = some tk ∧
      (answer N rawKey rawNonce c x).2.clock = x.clock := by
  have hkeep : ∀ entropy tenantId',
      (x.kms.tenantKeys entropy rawKey tenantId').2.tenants.lookup tenantId = some tk := by
    intro entropy tenantId'
    rcases lookup_tenantKeys x.kms entropy rawKey tenantId tenantId' with hsame | ⟨hnone, -⟩
    · exact hsame.trans htk
    · cases hnone.symm.trans htk
  cases c with
  | now | randRead | consume | ownsBlock => exact ⟨htk, rfl⟩
  | signingKey tenantId' =>
    refine ⟨?_, rfl⟩
    show (x.kms.signingKey rawKey tenantId').2.tenants.lookup tenantId = some tk
    rw [signingKey_snd]
    exact hkeep _ _
  | verificationKey tenantId' v =>
    refine ⟨?_, rfl⟩
    show (x.kms.verificationKey x.clock rawKey tenantId' v).2.tenants.lookup tenantId = some tk
    rw [verificationKey_snd]
    exact hkeep _ _

/-- Any routine leaves the keys of a tenant that has some as they are. -/
theorem eval_keys (rawKey : Except String (List UInt8)) (rawNonce : Except String (BitVec 128))
    (p : Routine (List UInt8) β) (htk : x.kms.tenants.lookup tenantId = some tk) :
    (p.eval (answer N rawKey rawNonce) x).2.kms.tenants.lookup tenantId = some tk ∧
      (p.eval (answer N rawKey rawNonce) x).2.clock = x.clock := by
  induction p generalizing x with
  | ret b => exact ⟨htk, rfl⟩
  | call c next ih =>
    obtain ⟨htk', hclock⟩ := answer_keys (N := N) rawKey rawNonce c htk
    obtain ⟨hkeys, hclock'⟩ := ih _ htk'
    exact ⟨hkeys, hclock'.trans hclock⟩

/-- The keys of a tenant after a call that does not provision it. -/
theorem serve_keys (hr : ¬ r.provisions tenantId) (htk : x.kms.tenants.lookup tenantId = some tk) :
    (x.serve N g r).clock = x.clock ∧
      ((x.serve N g r).kms.tenants.lookup tenantId = some tk ∨ r.rotates tenantId = true ∧ ∃ key,
        (x.serve N g r).kms.tenants.lookup tenantId = some (tk.rotated x.clock key)) := by
  cases r with
  | provision tenantId' version key =>
    refine ⟨rfl, .inl ?_⟩
    show (x.kms.put tenantId' _).tenants.lookup tenantId = some tk
    rw [lookup_put, if_neg (Ne.symm hr)]
    exact htk
  | rotate raw tenantId' =>
    refine ⟨rfl, ?_⟩
    rcases lookup_rotate x.kms x.clock raw tenantId tenantId' with
      hsame | ⟨heq, tk', key, -, htk', h⟩
    · exact .inl (hsame.trans htk)
    · cases htk.symm.trans htk'
      exact .inr ⟨decide_eq_true heq, key, h⟩
  | signClaims rawKey rawNonce tenantId' blockHash endpointId =>
    obtain ⟨hkeys, hclock⟩ := eval_keys (N := N) _ _ _ htk
    exact ⟨hclock, .inl hkeys⟩
  | validate rawKey tok =>
    obtain ⟨hkeys, hclock⟩ := eval_keys (N := N) _ _ _ htk
    exact ⟨hclock, .inl hkeys⟩

variable {e : Time × Request}

/-- What a call at an instant leaves. -/
theorem step_eq (h : x.step N g e = some x') :
    x.clock ≤ e.1 ∧ x' = (x.atTime e.1).serve N g e.2 := by
  dsimp only [step] at h
  split at h
  · cases h
  · next hlt =>
    cases h
    exact ⟨not_lt.1 hlt, rfl⟩

/-- A tenant with keys, of which the current version is not superseded. -/
def Unretired (tenantId : Uuid) (x : Origin σ) : Prop :=
  ∃ tk, x.kms.tenants.lookup tenantId = some tk ∧ tk.currentRecord.supersededAt = none

/-- Keys whose current version has just been activated. -/
theorem activate_unretired (versions : Table Int (KeyRecord (List UInt8))) (v : Int)
    (key : List UInt8) :
    (TenantKeys.activate versions v key).currentRecord.supersededAt = none := by
  have hrecord : (TenantKeys.activate versions v key).versions.lookup v = some ⟨key, none⟩ := by
    rw [TenantKeys.lookup_activate, if_pos rfl]
  rw [currentRecord_eq hrecord]

theorem unretired_provision (kms : StaticKMS (List UInt8)) (store : σ) (start : Time)
    (tenantId : Uuid) (v : Int) (key : List UInt8) :
    Unretired tenantId ⟨kms.provision tenantId v key, store, start⟩ := by
  refine ⟨.activate (((kms.tenants.lookup tenantId).map TenantKeys.versions).getD ∅) v key, ?_,
    activate_unretired _ _ _⟩
  show (kms.put tenantId _).tenants.lookup tenantId = _
  rw [lookup_put, if_pos rfl]

theorem Unretired.step (h : Unretired tenantId x) (hr : ¬ e.2.provisions tenantId)
    (hstep : x.step N g e = some x') : Unretired tenantId x' := by
  obtain ⟨tk, htk, hnone⟩ := h
  obtain ⟨-, rfl⟩ := step_eq hstep
  obtain ⟨-, hsame | ⟨-, key, hkey⟩⟩ := serve_keys (N := N) (g := g) (x := x.atTime e.1) hr htk
  · exact ⟨tk, hsame, hnone⟩
  · exact ⟨_, hkey, activate_unretired _ _ _⟩

/-- **The version that was signed with stays**, for as many rotations as there are `int`s. -/
theorem run_carries (hr : ∀ e ∈ calls, ¬ e.2.provisions tenantId) (j : Nat)
    (hj : j + calls.countP (fun e => e.2.rotates tenantId) < 2 ^ 64) (hle : t ≤ x.clock)
    (htk : x.kms.tenants.lookup tenantId = some tk) (h : Carries v key t j tk)
    (hrun : Run.run (step N g) x calls = some x') :
    t ≤ x'.clock ∧ ∃ tk' j', x'.kms.tenants.lookup tenantId = some tk' ∧
      Carries v key t j' tk' := by
  induction calls generalizing x tk j with
  | nil =>
    cases hrun
    exact ⟨hle, tk, j, htk, h⟩
  | cons e calls ih =>
    obtain ⟨x₁, hstep, hrun⟩ := Option.bind_eq_some_iff.1 hrun
    obtain ⟨hclock, rfl⟩ := step_eq hstep
    have hr' := fun e' he' => hr e' (List.mem_cons_of_mem e he')
    obtain ⟨hc, hkeys⟩ :=
      serve_keys (N := N) (g := g) (x := x.atTime e.1) (hr e List.mem_cons_self) htk
    have hle' : t ≤ ((x.atTime e.1).serve N g e.2).clock := hc ▸ hle.trans hclock
    rw [List.countP_cons] at hj
    rcases hkeys with hsame | ⟨hrot, key', hkey⟩
    · exact ih hr' j (by omega) hle' hsame h hrun
    · rw [if_pos hrot] at hj
      exact ih hr' (j + 1) (by omega) hle' hkey (h.rotated (by omega) (hle.trans hclock) key') hrun

/-! ## The nonce -/

/-- From now on the nonce is not live. -/
def Unused (N : NonceStore σ) (nonce : List Char) (x : Origin σ) : Prop :=
  ∀ t, x.clock ≤ t → ¬ N.Live x.store t nonce

variable {rawKey : Except String (List UInt8)}

/-- Commands that do not consume the nonce, nor something that is no nonce, keep it so. -/
theorem Unused.answer (hexact : N.Exact) (hnonce : IsNonce nonce) (h : Unused N nonce x)
    (hc : ∀ n d, c = .consume n d → IsNonce n ∧ n ≠ nonce) :
    Unused N nonce (Origin.answer N rawKey rawNonce c x).2 := by
  cases c with
  | now | randRead | ownsBlock | signingKey | verificationKey => exact h
  | consume n d =>
    obtain ⟨hn, hne⟩ := hc n d rfl
    intro t ht hlive
    exact h t ht (hexact _ _ _ _ _ _ ht hn hnonce (Ne.symm hne) hlive)

theorem Unused.atTime (h : Unused N nonce x) (hle : x.clock ≤ t) : Unused N nonce (x.atTime t) :=
  fun t' ht' => h t' (hle.trans ht')

theorem Unused.signClaims (hexact : N.Exact) (hnonce : IsNonce nonce) (h : Unused N nonce x)
    (rawKey : Except String (List UInt8)) (rawNonce : Except String (BitVec 128)) (tenantId : Uuid)
    (blockHash endpointId : List Char) :
    Unused N nonce (x.signClaims N g rawKey rawNonce tenantId blockHash endpointId).2 := by
  refine (signClaims_issues g tenantId blockHash endpointId).eval (fun c x hc h => ?_) h
  exact h.answer hexact hnonce fun n d heq => absurd heq (hc n d)

/-- A token with another nonce, or one that is malformed and so never gets there. -/
theorem Unused.validate (hexact : N.Exact) (hnonce : IsNonce nonce) (h : Unused N nonce x)
    (rawKey : Except String (List UInt8)) (hne : tok.claims.nonceHex ≠ nonce) :
    Unused N nonce (x.validate N g rawKey tok).2 := by
  cases hvalid : tok.claims.valid with
  | some m =>
    have hform : g.checkStructure tok = some m := by
      rw [TokenGenerator.checkStructure, hvalid]
    unfold Origin.validate TokenGenerator.validate
    rw [hform]
    exact h
  | none =>
    obtain ⟨-, -, -, -, -, -, -, hlen, hhex⟩ := Claims.valid_iff.1 hvalid
    refine (g.validate_unspent tok).issues.eval (fun c x hc h => ?_) h
    refine h.answer hexact hnonce fun n d heq => ?_
    rw [hc n d heq]
    exact ⟨⟨hlen, hhex⟩, hne⟩

/-- A call that does not validate a token with this nonce. -/
theorem Unused.step (hexact : N.Exact) (hnonce : IsNonce nonce) (h : Unused N nonce x)
    (he : ¬ e.2.presents nonce) (hstep : x.step N g e = some x') : Unused N nonce x' := by
  obtain ⟨hclock, rfl⟩ := step_eq hstep
  have hat := h.atTime hclock
  obtain ⟨t, r⟩ := e
  cases r with
  | provision | rotate => exact hat
  | signClaims rawKey rawNonce tenantId blockHash endpointId =>
    exact hat.signClaims hexact hnonce rawKey rawNonce tenantId blockHash endpointId
  | validate rawKey tok => exact hat.validate hexact hnonce rawKey he

/-! ## Signing and validating -/

/-- What a token that is returned has from its signer: the version that is current, and its key. -/
theorem signClaims_carries (htk : x.kms.tenants.lookup tenantId = some tk)
    (hnone : tk.currentRecord.supersededAt = none)
    (hsign : x.signClaims N g rawKey rawNonce tenantId blockHash endpointId = (.ok st, x')) :
    x' = x ∧ st.claims.tenantId = tenantId ∧ st.claims.valid = none ∧
      st.claims.expiryUnix = unix (x.clock + g.ttl) ∧
      ∃ key, st.signatureHex = g.mac.encode (g.mac.compute key st.claims.message) ∧
        Carries st.claims.keyVersion key x.clock 0 tk := by
  obtain ⟨version, key, nonce, t, x₁, x₂, hkey, hrand, hnow, hst⟩ := g.signClaims_eval hsign
  have hcur : x.kms.signingKey rawKey tenantId =
      (.ok (tk.current, tk.currentRecord.key), x.kms) := by
    simp only [StaticKMS.signingKey, StaticKMS.tenantKeys, htk]
  have hkey : ((.ok (tk.current, tk.currentRecord.key), x) :
      Except KmsError (Int × List UInt8) × Origin σ) = (.ok (version, key), x₁) := by
    refine Eq.trans ?_ hkey
    simp only [Origin.answer, hcur]
    rfl
  cases hkey
  cases hrand
  cases hnow
  unfold TokenGenerator.signWith at hst
  split at hst
  · cases hst
  · next hvalid =>
    cases hst
    obtain ⟨r, hr⟩ := Option.isSome_iff_exists.1 tk.recorded
    refine ⟨rfl, rfl, hvalid, rfl, _, rfl, ⟨r, hr, ?_, fun τ hτ => ?_⟩, 0, le_rfl, by simp⟩
    · rw [currentRecord_eq hr]
    · rw [currentRecord_eq hr, hτ] at hnone
      cases hnone

/-- A version that is carried verifies in its window. -/
theorem verificationKey_of_carries {kms : StaticKMS (List UInt8)}
    (htk : kms.tenants.lookup tenantId = some tk) (h : Carries v key t j tk)
    (hnow : now < t + overlapWindow) :
    kms.verificationKey now rawKey tenantId v = (.ok (some key), kms) := by
  obtain ⟨r, hr, rfl, hsup⟩ := h.record
  have hactive : r.active now = true := by
    unfold KeyRecord.active
    split
    · rfl
    · next τ hτ => exact decide_eq_true (hnow.trans_le (Int.add_le_add_right (hsup τ hτ) _))
  simp only [StaticKMS.verificationKey, StaticKMS.tenantKeys, htk, hr, Option.filter_some, hactive,
    if_true, Option.map_some]

/-- A signature of the source has its form, and decodes to the MAC. -/
theorem hexMac_encode (hmac : Hmac) (key : List UInt8)
    (m : List Char) :
    (hexMac hmac).wellFormed ((hexMac hmac).encode ((hexMac hmac).compute key m)) = true ∧
      (hexMac hmac).decode ((hexMac hmac).encode ((hexMac hmac).compute key m)) =
        some ((hexMac hmac).compute key m) := by
  refine ⟨?_, decodeString_encodeToString _⟩
  have hlen : (encodeToString (hmac key m).toList).length = 64 := by
    rw [length_encodeToString, Vector.length_toList]
  have hhex : isLowerHex (encodeToString (hmac key m).toList) = true :=
    List.all_eq_true.2 fun c hc => isLowerHexDigit_of_mem_encodeToString hc
  simp [hexMac, hlen, hhex]

/-- The token outlives no version: it is fresh for less than the overlap window. -/
theorem lt_overlap_of_fresh {t now : Int} {ttl skew : Nat}
    (hwindow : ttl + skew + 1 < 7 * 24 * 3600)
    (hfresh : now / 10 ^ 9 ≤ (t + ttl * 10 ^ 9) / 10 ^ 9 + skew) : now < t + overlapWindow := by
  have hoverlap : overlapWindow = 604800 * 10 ^ 9 := rfl
  rw [hoverlap]
  omega

/-- The expiry of a token that was signed at `t`, and that it is fresh for the skew beyond it. -/
theorem fresh_of_signed {t now : Int} {ttl skew : Nat} {claims : Claims}
    (httl : g.ttl = ttl * 10 ^ 9) (hskew : g.skew = skew * 10 ^ 9) (hwindow : ttl + skew < 2 ^ 61)
    (hexpiry : claims.expiryUnix = unix (t + g.ttl)) (hle : t ≤ now) (hlo : -2 ^ 62 ≤ t / 10 ^ 9)
    (hhi : now / 10 ^ 9 < 2 ^ 62) (hfresh : now / 10 ^ 9 ≤ claims.expiryUnix.toInt + skew) :
    claims.expiryUnix.toInt = (t + ttl * 10 ^ 9) / 10 ^ 9 ∧ g.checkFreshness now claims = none := by
  have hunix : claims.expiryUnix.toInt = (t + ttl * 10 ^ 9) / 10 ^ 9 := by
    rw [hexpiry, httl]
    exact toInt_unix rfl (by omega) (by omega)
  refine ⟨hunix, (g.checkFreshness_eq_none httl hskew hwindow rfl (by omega) hhi claims).2 ?_⟩
  refine ⟨hfresh, ?_⟩
  rw [hunix]
  omega

/-- **What the first validation needs**: the version with its key in its window, and a nonce that is
not live. -/
theorem accepted_of_carries (rawKey : Except String (List UInt8)) (hg : g.mac = hexMac hmac)
    (hown : g.hasOwnership = false) (htk : x.kms.tenants.lookup st.claims.tenantId = some tk)
    (hcarries : Carries st.claims.keyVersion key t j tk) (hwindow : x.clock < t + overlapWindow)
    (hvalid : st.claims.valid = none)
    (hsig : st.signatureHex = g.mac.encode (g.mac.compute key st.claims.message))
    (hfresh : g.checkFreshness x.clock st.claims = none) (hunused : Unused N st.claims.nonceHex x) :
    (x.validate N g rawKey st).1 = .ok () := by
  obtain ⟨hform, hdecode⟩ := hexMac_encode hmac key st.claims.message
  have hstructure : g.checkStructure st = none := by
    simp only [TokenGenerator.checkStructure, hvalid, hsig, hg, hform, if_true]
  have hkey : Origin.answer N rawKey (.error "not asked for")
      (.verificationKey st.claims.tenantId st.claims.keyVersion) x = (.ok (some key), x) := by
    simp only [Origin.answer, verificationKey_of_carries htk hcarries hwindow]
  have hfirst : (N.consume x.store x.clock st.claims.nonceHex (g.ttl + g.skew)).1 = true :=
    N.consume_fst.2 (hunused x.clock le_rfl)
  have hconsume : ∃ x', Origin.answer N rawKey (.error "not asked for")
      (.consume st.claims.nonceHex (g.ttl + g.skew)) x = (.ok true, x') := by
    simp only [Origin.answer, hfirst]
    exact ⟨_, rfl⟩
  obtain ⟨x', hconsume⟩ := hconsume
  refine (g.validate_eval st).2 ⟨hstructure, hfresh, (g.authenticate_eval hown st).2 ?_⟩
  exact ⟨key, x, x', hkey, by rw [hsig, hg, hdecode], hconsume⟩

/-- **Rotation is transparent.** A tenant is provisioned once. A token that `SignClaims` returns for
it is accepted by the first `Validate` call with its nonce, as long as the whole second is not later
than the expiry and the skew, whatever was signed, validated and rotated in between. A version is
an `int`, and would come back after all of its 2^64 values; seconds are `int64`s. -/
theorem accepted_after_rotations (hmac : Hmac)
    (N : NonceStore σ) (hexact : N.Exact) (ttl skew : Nat)
    (hwindow : ttl + skew + 1 < 7 * 24 * 3600) (kms : StaticKMS (List UInt8)) (store : σ)
    (hstore : ∀ t n, ¬ N.Live store t n) (start t now : Time) (tenantId : Uuid) (v : Int)
    (key : List UInt8) (before after : List (Time × Request)) (x₁ x₂ x₃ : Origin σ)
    (rawKey rawKey' : Except String (List UInt8)) (rawNonce : Except String (BitVec 128))
    (blockHash endpointId : List Char) (st : SignedToken (List Char)) :
    let g := ⟨hexMac hmac, ttl * 10 ^ 9, skew * 10 ^ 9, false⟩
    Run.run (step N g) ⟨kms.provision tenantId v key, store, start⟩ before = some x₁ →
    x₁.clock ≤ t →
    (x₁.atTime t).signClaims N g rawKey rawNonce tenantId blockHash endpointId = (.ok st, x₂) →
    Run.run (step N g) x₂ after = some x₃ →
    x₃.clock ≤ now →
    now / 10 ^ 9 ≤ st.claims.expiryUnix.toInt + skew →
    (∀ e ∈ before ++ after, ¬ e.2.provisions tenantId) →
    (∀ e ∈ before ++ after, ¬ e.2.presents st.claims.nonceHex) →
    after.countP (fun e => e.2.rotates tenantId) < 2 ^ 64 →
    -2 ^ 62 ≤ t / 10 ^ 9 → now / 10 ^ 9 < 2 ^ 62 →
    ((x₃.atTime now).validate N g rawKey' st).1 = .ok () := by
  intro g hbefore ht hsign hafter hnow hfresh hprovisions hpresents hrotations hlo hhi
  have hx₁ : Unretired tenantId x₁ :=
    Run.run_of_forall (fun h hr hs => h.step hr hs)
      (unretired_provision kms store start tenantId v key)
      (fun e he => hprovisions e (List.mem_append_left _ he)) hbefore
  obtain ⟨tk, htk, hnone⟩ := hx₁
  obtain ⟨rfl, htenant, hvalid, hexpiry, key, hsig, hcarries⟩ :=
    signClaims_carries (x := x₁.atTime t) htk hnone hsign
  have hnonce : IsNonce st.claims.nonceHex := by
    obtain ⟨-, -, -, -, -, -, -, hlen, hhex⟩ := Claims.valid_iff.1 hvalid
    exact ⟨hlen, hhex⟩
  -- the version and its key are carried through the calls after the signing
  obtain ⟨hclock, tk', j, htk', hcarries'⟩ :=
    run_carries (x := x₁.atTime t) (fun e he => hprovisions e (List.mem_append_right _ he)) 0
      (by rwa [Nat.zero_add]) le_rfl htk hcarries hafter
  -- and the nonce is consumed neither before nor after it
  have hunused₁ : Unused N st.claims.nonceHex x₁ :=
    Run.run_of_forall (fun h hr hs => h.step hexact hnonce hr hs) (fun t _ => hstore t _)
      (fun e he => hpresents e (List.mem_append_left _ he)) hbefore
  have hunused₃ : Unused N st.claims.nonceHex x₃ :=
    Run.run_of_forall (fun h hr hs => h.step hexact hnonce hr hs) (hunused₁.atTime ht)
      (fun e he => hpresents e (List.mem_append_right _ he)) hafter
  obtain ⟨hexpiry', hfresh'⟩ := fresh_of_signed (g := g) rfl rfl (by omega) hexpiry
    (hclock.trans hnow) hlo hhi hfresh
  rw [hexpiry'] at hfresh
  rw [← htenant] at htk'
  exact accepted_of_carries rawKey' rfl rfl htk' hcarries' (lt_overlap_of_fresh hwindow hfresh)
    hvalid hsig hfresh' (hunused₃.atTime hnow)

/-! ## Two rotations in the lifetime of a token -/

/-- A generator with a MAC that anyone can compute. -/
def plainGenerator : TokenGenerator (List UInt8) (List UInt8) (List Char) :=
  ⟨hexMac fun _ m => Vector.ofFn fun i => UInt8.ofNat (m.length + i), (900 : Nat) * 10 ^ 9,
    (60 : Nat) * 10 ^ 9, false⟩

/-- A tenant with the first version of its keys, at 1000 s. -/
def provisioned : Origin Expiries :=
  ⟨(⟨∅, false⟩ : StaticKMS (List UInt8)).provision 1 1 (List.replicate 32 7), ∅, 1000 * 10 ^ 9⟩

/-- Two rotations. -/
def twoRotations : List (Time × Request) :=
  [(1100 * 10 ^ 9, .rotate (.ok (List.replicate 32 8)) 1),
    (1200 * 10 ^ 9, .rotate (.ok (List.replicate 32 9)) 1)]

/-- The token that is signed at 1000 s. -/
def signedEarly : Except AuthError (SignedToken (List Char)) × Origin Expiries :=
  (provisioned.atTime (1000 * 10 ^ 9)).signClaims (inMemoryNonceStore 0) plainGenerator (.error "")
    (.ok 5) 1 (List.replicate 64 'a') ['e']

theorem accepted_after_rotations_two :
    ∃ st x, signedEarly.1 = .ok st ∧
      Run.run (step (inMemoryNonceStore 0) plainGenerator) signedEarly.2 twoRotations = some x ∧
      x.kms.current? 1 = some 3 ∧
      ((x.atTime (1960 * 10 ^ 9)).validate (inMemoryNonceStore 0) plainGenerator (.error "") st).1 =
        .ok () := by
  have hsigned : (signedEarly.1.map fun st => st.claims.expiryUnix) = .ok 1900 := by decide +kernel
  have hrun : (Run.run (step (inMemoryNonceStore 0) plainGenerator) signedEarly.2 twoRotations).map
      (fun x => (x.kms.current? 1, x.clock)) = some (some 3, 1200 * 10 ^ 9) := by
    decide +kernel
  obtain ⟨x, hx, hcur, hclock⟩ := exists_of_map_eq_pair hrun
  cases hst : signedEarly.1 with
  | error e =>
    rw [hst] at hsigned
    cases hsigned
  | ok st =>
    rw [hst] at hsigned
    have hexpiry : st.claims.expiryUnix = 1900 := Except.ok.inj hsigned
    refine ⟨st, x, rfl, hx, hcur, ?_⟩
    refine accepted_after_rotations _ (inMemoryNonceStore 0) (inMemoryNonceStore_exact 0) 900 60
      (by decide) ⟨∅, false⟩ ∅ (fun t n h => nomatch h) (1000 * 10 ^ 9) (1000 * 10 ^ 9) _ 1 1
      (List.replicate 32 7) [] twoRotations provisioned signedEarly.2 x (.error "") (.error "")
      (.ok 5) (List.replicate 64 'a') ['e'] st rfl le_rfl (Prod.ext hst rfl) hx ?_ ?_ ?_ ?_
      (by decide) (by decide) (by decide)
    · rw [hclock]
      decide
    · rw [hexpiry]
      decide
    · simp [twoRotations, Request.provisions]
    · simp [twoRotations, Request.presents]

end Origin

end Aegis.Auth
