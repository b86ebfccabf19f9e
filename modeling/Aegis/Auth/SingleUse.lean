import Aegis.Auth.Authentic
import Aegis.Auth.Nonces
import Aegis.Lib.Run

/-!
# Single use of tokens

Any number of `Validate` calls, interleaved at their calls to the clock, the key store, the nonce
store and the ownership checker, over one nonce store and one clock. The key store and the ownership
checker may answer anything. A nonce is live for `ttl + skew` from its consumption, but nothing
keeps a token from being presented later than that: freshness is checked in whole seconds, and a
validator may pause between its freshness check and its consumption. A token is accepted once as
long as no call consumes its nonce that late.
-/

namespace Aegis.Auth

open Proc

variable {Key Tag Sig σ : Type}

/-! ## One call for each token -/

variable {i : Nat}

section
variable {α κ : Type} {p : α → Prop} {key : α → κ} {l : List α} {x : α}

/-- Of the members that satisfy `p`, no two have the same key. -/
def OneEach (p : α → Prop) (key : α → κ) (l : List α) : Prop :=
  ∀ (i j : Nat) (a b : α), l[i]? = some a → l[j]? = some b → p a → p b → key a = key b → i = j

/-- A member is replaced by one that, if it satisfies `p`, has a key of its own. -/
theorem OneEach.set (h : OneEach p key l)
    (hx : p x → ∀ j b, l[j]? = some b → j ≠ i → p b → key x ≠ key b) :
    OneEach p key (l.set i x) := by
  intro j k a b ha hb hpa hpb hkey
  rw [List.getElem?_set] at ha hb
  split at ha
  · next hj =>
    split at hb
    · next hk => exact hj.symm.trans hk
    · next hk =>
      split at ha
      · cases ha
        exact absurd hkey (hx hpa k b hb (Ne.symm hk) hpb)
      · cases ha
  · next hj =>
    split at hb
    · next hk =>
      split at hb
      · cases hb
        exact absurd hkey.symm (hx hpb j a ha (Ne.symm hj) hpa)
      · cases hb
    · exact h j k a b ha hb hpa hpb hkey

/-- A member that does not satisfy `p` is added. -/
theorem OneEach.append_singleton (h : OneEach p key l) (hx : ¬ p x) :
    OneEach p key (l ++ [x]) := by
  have hold : ∀ (j : Nat) (a : α), (l ++ [x])[j]? = some a → p a → l[j]? = some a := by
    intro j a ha hpa
    rcases Nat.lt_or_ge j l.length with hlt | hge
    · rwa [List.getElem?_append_left hlt] at ha
    · rw [List.getElem?_append_right hge] at ha
      obtain rfl := List.mem_singleton.1 (List.mem_of_getElem? ha)
      exact absurd hpa hx
  intro j k a b ha hb hpa hpb hkey
  exact h j k a b (hold j a ha hpa) (hold k b hb hpb) hpa hpb hkey

end

/-! ## Runs -/

/-- A `Validate` call under way, with the time at which its nonce was consumed. -/
structure Validation (Key Sig : Type) where
  tok : SignedToken Sig
  rest : Routine Key (Except AuthError Unit)
  consumedAt : Option Time

/-- The call has returned `(true, nil)`. -/
def Validation.accepted (v : Validation Key Sig) : Bool :=
  match v.rest with
  | .ret (.ok ()) => true
  | _ => false

/-- The next call is to `Consume`. -/
def Validation.consuming (v : Validation Key Sig) : Bool :=
  match v.rest with
  | .call (.consume _ _) _ => true
  | _ => false

/-- The clock, the nonce store and the calls. -/
structure Perimeter (Key Sig σ : Type) where
  clock : Time
  store : σ
  calls : List (Validation Key Sig)

/-- The clock moves on, a call of a validator begins, or a call gets its next answer. Answers other
than of the clock and the nonce store are part of the action; so is a failure of the nonce store,
which may or may not have consumed the nonce. -/
inductive Move (Key Tag Sig : Type)
  | tick (d : Nat)
  | validate (mac : Mac Key Tag Sig) (hasOwnership : Bool) (tok : SignedToken Sig)
  | resume (i : Nat) (answer : (c : Cmd) → Answer Key c) (fault : Option (Bool × String))

variable {d : Time} {n : List Char} {v : Validation Key Sig}

namespace Perimeter

def put (s : Perimeter Key Sig σ) (i : Nat) (v : Validation Key Sig) : Perimeter Key Sig σ :=
  { s with calls := s.calls.set i v }

/-- A call of `Consume`. -/
def consume (N : NonceStore σ) (s : Perimeter Key Sig σ) (i : Nat) (v : Validation Key Sig)
    (nonce : List Char) (ttl : Time)
    (next : Except String Bool → Routine Key (Except AuthError Unit))
    (fault : Option (Bool × String)) : Perimeter Key Sig σ :=
  let (fresh, store) := N.consume s.store s.clock nonce ttl
  match fault with
  | none =>
    { s with store := store }.put i
      { v with
        rest := next (.ok fresh)
        consumedAt := if fresh then some s.clock else v.consumedAt }
  | some (applied, err) =>
    { s with store := if applied then store else s.store }.put i
      { v with rest := next (.error err) }

/-- The next answer to a call. -/
def resume (N : NonceStore σ) (s : Perimeter Key Sig σ) (i : Nat)
    (answer : (c : Cmd) → Answer Key c) (fault : Option (Bool × String)) :
    Option (Perimeter Key Sig σ) :=
  match s.calls[i]? with
  | none => none
  | some v =>
    match v.rest with
    | .ret _ => none
    | .call .now next => some (s.put i { v with rest := next s.clock })
    | .call (.consume nonce ttl) next => some (s.consume N i v nonce ttl next fault)
    | .call c next => some (s.put i { v with rest := next (answer c) })

variable [DecidableEq Tag] (N : NonceStore σ) (ttl skew : Time)

/-- One action, if it is possible. -/
def step (s : Perimeter Key Sig σ) : Move Key Tag Sig → Option (Perimeter Key Sig σ)
  | .tick d => some { s with clock := s.clock + d }
  | .validate mac hasOwnership tok =>
    let g : TokenGenerator Key Tag Sig := ⟨mac, ttl, skew, hasOwnership⟩
    some { s with calls := s.calls ++ [⟨tok, g.validate tok, none⟩] }
  | .resume i answer fault => s.resume N i answer fault

/-- A whole run. -/
abbrev run : Perimeter Key Sig σ → List (Move Key Tag Sig) → Option (Perimeter Key Sig σ) :=
  Run.run (step N ttl skew)

/-- If the action consumes the nonce of a token, that is less than `ttl + skew` after any earlier
consumption for the same token. -/
def Prompt (s : Perimeter Key Sig σ) : Move Key Tag Sig → Prop
  | .resume i _ _ => ∀ v ∈ s.calls[i]?, v.consuming = true → ∀ v' ∈ s.calls, v'.tok = v.tok →
      ∀ t ∈ v'.consumedAt, s.clock < t + (ttl + skew)
  | _ => True

/-- Every action of the run is so in the state it is taken in. -/
abbrev PromptThroughout : Perimeter Key Sig σ → List (Move Key Tag Sig) → Prop :=
  Run.Throughout (step N ttl skew) (Prompt ttl skew)

instance decidablePrompt [DecidableEq Sig] (s : Perimeter Key Sig σ) :
    (m : Move Key Tag Sig) → Decidable (Prompt ttl skew s m)
  | .tick _ => isTrue trivial
  | .validate _ _ _ => isTrue trivial
  | .resume i _ _ => inferInstanceAs (Decidable (∀ v ∈ s.calls[i]?, v.consuming = true →
      ∀ v' ∈ s.calls, v'.tok = v.tok → ∀ t ∈ v'.consumedAt, s.clock < t + (ttl + skew)))

/-- No token is accepted by two calls. -/
def SingleUse (s : Perimeter Key Sig σ) : Prop :=
  ∀ (i j : Nat) (v v' : Validation Key Sig), s.calls[i]? = some v → s.calls[j]? = some v' →
    v.accepted = true → v'.accepted = true → v.tok = v'.tok → i = j

end Perimeter

/-! ## Acceptance needs a consumed nonce -/

/-- The routine does not consume. -/
def Spent : Routine Key (Except AuthError Unit) → Prop
  | .ret _ => True
  | .call c next => (∀ n d, c ≠ .consume n d) ∧ ∀ a, Spent (next a)

/-- The routine accepts only after it has consumed `nonce` for `ttl`, and consumes it once. -/
def Unspent (nonce : List Char) (ttl : Time) : Routine Key (Except AuthError Unit) → Prop
  | .ret r => r ≠ .ok ()
  | .call (.consume n d) next =>
    n = nonce ∧ d = ttl ∧ Spent (next (.ok true)) ∧
      ∀ a : Except String Bool, a ≠ .ok true → Unspent nonce ttl (next a)
  | .call .now next => ∀ a, Unspent nonce ttl (next a)
  | .call (.signingKey _) next => ∀ a, Unspent nonce ttl (next a)
  | .call (.verificationKey _ _) next => ∀ a, Unspent nonce ttl (next a)
  | .call .randRead next => ∀ a, Unspent nonce ttl (next a)
  | .call (.ownsBlock _ _) next => ∀ a, Unspent nonce ttl (next a)

variable {nonce : List Char}

/-- The rest of a routine after an answer of something other than the nonce store. -/
theorem Unspent.next {c : Cmd} {next : Answer Key c → Routine Key (Except AuthError Unit)}
    (hc : ∀ n d, c ≠ .consume n d) (h : Unspent nonce d (.call c next)) (a : Answer Key c) :
    Unspent nonce d (next a) := by
  cases c with
  | consume n d => exact absurd rfl (hc n d)
  | now | signingKey | verificationKey | randRead | ownsBlock => exact h a

theorem unspent_error (e : AuthError) :
    Unspent nonce ttl (.ret (.error e) : Routine Key (Except AuthError Unit)) := by
  intro h
  cases h

theorem unspent_now (h : ∀ t, Unspent nonce ttl (f t)) : Unspent nonce ttl (now >>= f) :=
  h

theorem unspent_verificationKey (h : ∀ a, Unspent nonce ttl (f a)) :
    Unspent nonce ttl (verificationKey tenantId version >>= f) :=
  h

namespace TokenGenerator

variable (g : TokenGenerator Key Tag Sig)

theorem checkOwnership_spent (claims : Claims) : Spent (g.checkOwnership claims) := by
  unfold checkOwnership
  split
  · refine ⟨nofun, fun a => ?_⟩
    match a with
    | .error e => trivial
    | .ok false => trivial
    | .ok true => trivial
  · trivial

theorem redeem_unspent (claims : Claims) :
    Unspent claims.nonceHex (g.ttl + g.skew) (g.redeem claims) := by
  refine ⟨rfl, rfl, g.checkOwnership_spent claims, fun a ha => ?_⟩
  cases a with
  | error e => exact unspent_error _
  | ok fresh =>
    cases fresh with
    | false => exact unspent_error _
    | true => exact absurd rfl ha

variable [DecidableEq Tag]

theorem authenticate_unspent (tok : SignedToken Sig) :
    Unspent tok.claims.nonceHex (g.ttl + g.skew) (g.authenticate tok) := by
  refine unspent_verificationKey fun a => ?_
  cases a with
  | error e => exact unspent_error _
  | ok found =>
    cases found with
    | none => exact unspent_error _
    | some key =>
      dsimp only
      split
      · exact unspent_error _
      · split
        · exact g.redeem_unspent tok.claims
        · exact unspent_error _

theorem validate_unspent (tok : SignedToken Sig) :
    Unspent tok.claims.nonceHex (g.ttl + g.skew) (g.validate tok) := by
  unfold validate
  split
  · exact unspent_error _
  · refine unspent_now fun t => ?_
    split
    · exact unspent_error _
    · exact g.authenticate_unspent tok

end TokenGenerator

/-! ## The invariant -/

namespace Perimeter

variable {N : NonceStore σ} {ttl skew : Time} {s s' : Perimeter Key Sig σ}

/-- Where a call stands with its nonce. -/
structure Tracked (N : NonceStore σ) (ttl skew : Time) (s : Perimeter Key Sig σ)
    (v : Validation Key Sig) : Prop where
  /-- It has still to consume it, -/
  unspent : v.consumedAt = none → Unspent v.tok.claims.nonceHex (ttl + skew) v.rest
  /-- or has consumed it and is done with that, -/
  spent : ∀ t, v.consumedAt = some t → Spent v.rest
  /-- and then it is live for the rest of its time. -/
  live : ∀ t, v.consumedAt = some t → ∀ t', s.clock ≤ t' → t' < t + (ttl + skew) →
    N.Live s.store t' v.tok.claims.nonceHex

/-- **The invariant**: every call is tracked, and of the calls with one token only one has consumed
its nonce. -/
structure Guarded (N : NonceStore σ) (ttl skew : Time) (s : Perimeter Key Sig σ) : Prop where
  tracked : ∀ v ∈ s.calls, Tracked N ttl skew s v
  once : ∀ (i j : Nat) (v v' : Validation Key Sig), s.calls[i]? = some v → s.calls[j]? = some v' →
    v.consumedAt.isSome = true → v'.consumedAt.isSome = true → v.tok = v'.tok → i = j

theorem Tracked.mono (h : Tracked N ttl skew s v) (hclock : s.clock ≤ s'.clock)
    (hlive : ∀ t m, s'.clock ≤ t → N.Live s.store t m → N.Live s'.store t m) :
    Tracked N ttl skew s' v where
  unspent := h.unspent
  spent := h.spent
  live t ht t' hle hlt := hlive _ _ hle (h.live t ht t' (hclock.trans hle) hlt)

/-- A call goes on, and has the only consumption of its token if it has one. -/
theorem Guarded.put (hs : Guarded N ttl skew s) (hclock : s'.clock = s.clock)
    (hcalls : s'.calls = s.calls.set i v)
    (hlive : ∀ t m, s.clock ≤ t → N.Live s.store t m → N.Live s'.store t m)
    (hv : Tracked N ttl skew s' v)
    (honce : v.consumedAt.isSome = true → ∀ j v', s.calls[j]? = some v' → j ≠ i →
      v'.consumedAt.isSome = true → v.tok ≠ v'.tok) :
    Guarded N ttl skew s' where
  tracked := by
    intro w hw
    rw [hcalls] at hw
    rcases List.mem_or_eq_of_mem_set hw with hw | rfl
    · exact (hs.tracked w hw).mono hclock.ge (hclock ▸ hlive)
    · exact hv
  once := by
    rw [hcalls]
    exact OneEach.set hs.once honce

/-- What a call that gets an answer can do. -/
theorem resume_cases (h : s.resume N i answer fault = some s') :
    ∃ v, s.calls[i]? = some v ∧
      ((∃ c next a, v.rest = .call c next ∧ (∀ n d, c ≠ .consume n d) ∧
          s' = s.put i { v with rest := next a }) ∨
        ∃ n d next, v.rest = .call (.consume n d) next ∧ s' = s.consume N i v n d next fault) := by
  unfold resume at h
  split at h
  · cases h
  · next v hv =>
    refine ⟨v, hv, ?_⟩
    split at h
    · cases h
    · next next hrest => exact .inl ⟨_, next, _, hrest, nofun, (Option.some.inj h).symm⟩
    · next n d next hrest => exact .inr ⟨n, d, next, hrest, (Option.some.inj h).symm⟩
    · next c next _ hc hrest =>
      refine .inl ⟨c, next, _, hrest, ?_, (Option.some.inj h).symm⟩
      rintro n d rfl
      exact hc n d next rfl HEq.rfl

/-- An answer of something other than the nonce store. -/
theorem Guarded.answer (hs : Guarded N ttl skew s) (hv : s.calls[i]? = some v)
    (hrest : v.rest = .call c next) (hc : ∀ n d, c ≠ .consume n d) (a : Answer Key c) :
    Guarded N ttl skew (s.put i { v with rest := next a }) := by
  have htracked := hs.tracked v (List.mem_of_getElem? hv)
  refine hs.put rfl rfl (fun _ _ _ h => h) ⟨fun hnone => ?_, fun t ht => ?_, htracked.live⟩ ?_
  · exact (hrest ▸ htracked.unspent hnone).next hc a
  · exact (hrest ▸ htracked.spent t ht : Spent (.call c next)).2 a
  · intro hsome j v' hv' hne hsome' htok
    exact hne (hs.once j i v' v hv' hv hsome' hsome htok.symm)

/-- A call that is about to consume has not done so yet. -/
theorem Tracked.about_to_consume (h : Tracked N ttl skew s v)
    (hrest : v.rest = .call (.consume n d) next) :
    v.consumedAt = none ∧ n = v.tok.claims.nonceHex ∧ d = ttl + skew ∧ Spent (next (.ok true)) ∧
      ∀ a, a ≠ .ok true → Unspent v.tok.claims.nonceHex (ttl + skew) (next a) := by
  cases hat : v.consumedAt with
  | some t => exact absurd rfl ((hrest ▸ h.spent t hat : Spent (.call (.consume n d) next)).1 n d)
  | none =>
    have hunspent : Unspent _ _ (.call (.consume n d) next) := hrest ▸ h.unspent hat
    exact ⟨rfl, hunspent⟩

/-- **A call of `Consume`** keeps the invariant if it is prompt: if it returns true, the nonce was
not live, so no earlier consumption for this token is recent enough to be prompt after. -/
theorem Guarded.consume (hs : Guarded N ttl skew s) (hv : s.calls[i]? = some v)
    (hrest : v.rest = .call (.consume n d) next)
    (hprompt : ∀ v' ∈ s.calls, v'.tok = v.tok → ∀ t ∈ v'.consumedAt, s.clock < t + (ttl + skew))
    (fault : Option (Bool × String)) : Guarded N ttl skew (s.consume N i v n d next fault) := by
  obtain ⟨hnone, rfl, rfl, hspent, hunspent⟩ :=
    (hs.tracked v (List.mem_of_getElem? hv)).about_to_consume hrest
  have hkeep : ∀ t m, s.clock ≤ t → N.Live s.store t m →
      N.Live (N.consume s.store s.clock v.tok.claims.nonceHex (ttl + skew)).2 t m :=
    fun t m hle h => N.live_keep hle h
  unfold Perimeter.consume
  cases fault with
  | some f =>
    obtain ⟨applied, err⟩ := f
    refine hs.put rfl rfl (fun t m hle h => ?_) ⟨fun _ => hunspent _ nofun, ?_, ?_⟩ ?_
    · cases applied with
      | true => exact hkeep t m hle h
      | false => exact h
    · simp [hnone]
    · simp [hnone]
    · simp [hnone]
  | none =>
    cases hfresh : (N.consume s.store s.clock v.tok.claims.nonceHex (ttl + skew)).1 with
    | false =>
      refine hs.put rfl rfl hkeep ⟨fun _ => ?_, ?_, ?_⟩ ?_
      · simpa [hfresh] using hunspent (.ok false) nofun
      all_goals simp [hfresh, hnone]
    | true =>
      refine hs.put rfl rfl hkeep ⟨?_, fun _ _ => ?_, fun t ht t' hle hlt => ?_⟩ ?_
      · simp [hfresh]
      · simpa [hfresh] using hspent
      · obtain rfl : s.clock = t := by simpa [hfresh] using ht
        exact N.live_fresh hfresh hlt
      · intro _ j v' hv' _ hsome htok
        obtain ⟨t, ht⟩ := Option.isSome_iff_exists.1 hsome
        have hmem := List.mem_of_getElem? hv'
        have hlive := (hs.tracked v' hmem).live t ht s.clock le_rfl (hprompt v' hmem htok.symm t ht)
        exact N.consume_fst.1 hfresh (htok ▸ hlive)

/-! ## Steps and runs -/

variable [DecidableEq Tag]

theorem guarded_init (clock : Time) (store : σ) :
    Guarded N ttl skew (⟨clock, store, []⟩ : Perimeter Key Sig σ) where
  tracked := nofun
  once := by simp

/-- A call begins without a consumption. -/
theorem Guarded.validate (hs : Guarded N ttl skew s) (g : TokenGenerator Key Tag Sig)
    (hd : g.ttl + g.skew = ttl + skew) (tok : SignedToken Sig) :
    Guarded N ttl skew { s with calls := s.calls ++ [⟨tok, g.validate tok, none⟩] } where
  tracked := by
    intro v hv
    rcases List.mem_append.1 hv with hv | hv
    · exact (hs.tracked v hv).mono le_rfl fun _ _ _ h => h
    · obtain rfl := List.mem_singleton.1 hv
      exact ⟨fun _ => hd ▸ g.validate_unspent tok, nofun, nofun⟩
  once := OneEach.append_singleton hs.once nofun

/-- One step. -/
theorem Guarded.step (hs : Guarded N ttl skew s) {m : Move Key Tag Sig}
    (hprompt : Prompt ttl skew s m) (h : s.step N ttl skew m = some s') :
    Guarded N ttl skew s' := by
  cases m with
  | tick d =>
    cases h
    have hclock : s.clock ≤ s.clock + d := Int.le_add_of_nonneg_right (Int.natCast_nonneg d)
    exact ⟨fun v hv => (hs.tracked v hv).mono hclock fun _ _ _ h => h, hs.once⟩
  | validate mac hasOwnership tok =>
    cases h
    exact hs.validate ⟨mac, ttl, skew, hasOwnership⟩ rfl tok
  | resume i answer fault =>
    obtain ⟨v, hv, hcases⟩ := resume_cases h
    rcases hcases with ⟨c, next, a, hrest, hc, rfl⟩ | ⟨n, d, next, hrest, rfl⟩
    · exact hs.answer hv hrest hc a
    · exact hs.consume hv hrest (hprompt v hv (by rw [Validation.consuming, hrest])) fault

/-- An accepted call has consumed its nonce. -/
theorem Tracked.consumed (h : Tracked N ttl skew s v) (haccepted : v.accepted = true) :
    v.consumedAt.isSome = true := by
  cases hat : v.consumedAt with
  | some t => rfl
  | none =>
    have hunspent := h.unspent hat
    unfold Validation.accepted at haccepted
    split at haccepted
    · next hrest =>
      rw [hrest] at hunspent
      exact absurd rfl hunspent
    · cases haccepted

/-- **Single use**: in a run from an empty perimeter in which no call consumes the nonce of a token
`ttl + skew` or more after an earlier consumption for the same token, no token is accepted twice. -/
theorem singleUse_of_prompt (N : NonceStore σ) (ttl skew clock : Time) (store : σ)
    (ms : List (Move Key Tag Sig)) (s' : Perimeter Key Sig σ)
    (hprompt : PromptThroughout N ttl skew ⟨clock, store, []⟩ ms)
    (hrun : run N ttl skew ⟨clock, store, []⟩ ms = some s') : SingleUse s' := by
  have hs : Guarded N ttl skew s' :=
    hprompt.run_induction (fun hs hp h => hs.step hp h) (guarded_init clock store) hrun
  intro i j v v' hv hv' hacc hacc' htok
  have hcons := (hs.tracked v (List.mem_of_getElem? hv)).consumed hacc
  have hcons' := (hs.tracked v' (List.mem_of_getElem? hv')).consumed hacc'
  exact hs.once i j v v' hv hv' hcons hcons' htok

end Perimeter

/-! ## A prompt run and a late one -/

/-- The key store has the sample key, and there is no more to ask. -/
def sampleAnswer : (c : Cmd) → Answer Nat c
  | .now => (0 : Time)
  | .signingKey _ => .ok (1, 7)
  | .verificationKey _ _ => .ok (some 7)
  | .randRead => .ok 5
  | .consume _ _ => .ok true
  | .ownsBlock _ _ => .ok true

/-- The whole `i`-th call, for the sample token. -/
def sampleValidate (i : Nat) : List (Move Nat (Signature Nat) (Signature Nat)) :=
  [.validate (symbolicMac fun _ => 32) false sampleToken, .resume i sampleAnswer none,
    .resume i sampleAnswer none, .resume i sampleAnswer none]

/-- A second, in nanoseconds. -/
def second : Nat := 10 ^ 9

/-- The sample token is presented twice within ten seconds, and accepted once. -/
theorem singleUse_promptReplay :
    ∃ s, Perimeter.run (inMemoryNonceStore 0) (900 * second) (60 * second)
        ⟨1000 * second, ∅, []⟩ (sampleValidate 0 ++ .tick (10 * second) :: sampleValidate 1) =
          some s ∧
      s.calls.map Validation.accepted = [true, false] ∧ s.SingleUse := by
  have hrun : (Perimeter.run (inMemoryNonceStore 0) (900 * second) (60 * second)
      ⟨1000 * second, ∅, []⟩ (sampleValidate 0 ++ .tick (10 * second) :: sampleValidate 1)).map
        (fun s => s.calls.map Validation.accepted) = some [true, false] := by
    decide +kernel
  obtain ⟨s, hs, haccepted⟩ := Option.map_eq_some_iff.1 hrun
  have hprompt : Perimeter.PromptThroughout (inMemoryNonceStore 0) (900 * second) (60 * second)
      ⟨1000 * second, ∅, []⟩ (sampleValidate 0 ++ .tick (10 * second) :: sampleValidate 1) := by
    decide +kernel
  exact ⟨s, hs, haccepted, Perimeter.singleUse_of_prompt _ _ _ _ _ _ _ hprompt hs⟩

/-- The sample token expires at 1900 s. It is accepted at 1000 s, its nonce is live until 1960 s,
and at 1960.5 s it is still fresh to the second. -/
theorem accepted_twice_halfSecondLate :
    ∃ s, Perimeter.run (inMemoryNonceStore 0) (900 * second) (60 * second)
        ⟨1000 * second, ∅, []⟩
        (sampleValidate 0 ++ .tick (960 * second + second / 2) :: sampleValidate 1) = some s ∧
      ¬ s.SingleUse := by
  have hrun : (Perimeter.run (inMemoryNonceStore 0) (900 * second) (60 * second)
      ⟨1000 * second, ∅, []⟩
      (sampleValidate 0 ++ .tick (960 * second + second / 2) :: sampleValidate 1)).map
        (fun s => s.calls.map fun v => (v.accepted, v.tok)) =
          some [(true, sampleToken), (true, sampleToken)] := by
    decide +kernel
  obtain ⟨s, hs, hcalls⟩ := Option.map_eq_some_iff.1 hrun
  refine ⟨s, hs, fun hsingle => ?_⟩
  match h : s.calls with
  | [v, v'] =>
    simp only [h, List.map_cons, List.map_nil, List.cons.injEq, Prod.mk.injEq] at hcalls
    obtain ⟨⟨hacc, htok⟩, ⟨hacc', htok'⟩, -⟩ := hcalls
    have heq := hsingle 0 1 v v' (by rw [h]; rfl) (by rw [h]; rfl) hacc hacc'
      (htok.trans htok'.symm)
    cases heq
  | [] | [_] | _ :: _ :: _ :: _ => simp [h] at hcalls

end Aegis.Auth
