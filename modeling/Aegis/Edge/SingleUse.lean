import Aegis.Auth.SingleUse
import Aegis.Edge.Agreement

/-!
# Single use across the two layers

Any number of requests to the worker and of `Validate` calls at the origin, interleaved at the calls
they make, over one Redis and one clock. Each layer sets a key in Redis for the nonce of a token and
accepts if the key was not there. But the keys are not the same: the worker sets `aegis:nonce:`
followed by the nonce, `RedisNonceStore` the same prefix followed by a digest of it. So a token is
accepted once by each layer, unless the other layer's key for its nonce is not there when a layer
sets its own.
-/

namespace Aegis.Edge

open Proc Ecma

/-! ## The REST interface of Redis -/

/-- The arguments of a command that is given as the path of a URL. -/
def restCommand (url : List Char) : List (List Char) :=
  ((url.splitOn '/').drop 1).map fun arg => Url.decodeUtf8 none (Url.percentDecode arg)

/-- The key and the seconds of a command `SET key value NX EX seconds`. -/
def setCommand (url : List Char) : Option (List Char × Nat) :=
  match restCommand url with
  | [set, key, _, nx, ex, seconds] =>
    if set = ['s', 'e', 't'] ∧ nx = ['N', 'X'] ∧ ex = ['E', 'X'] then
      (readDigits seconds).map fun n => (key, n)
    else none
  | _ => none

/-- The key that the worker sets. -/
def edgeKey (nonce : List Char) : List Char := Auth.nonceKeyPrefix ++ nonce

/-- **What the worker asks for**: to set its key for 960 s. -/
theorem setCommand_setUrl (h : nonce.all isLowerHexDigit = true) :
    setCommand (setUrl nonce) = some (edgeKey nonce, 960) := by
  have hplain : ∀ c ∈ nonce, c.toNat < 0x80 ∧ c ≠ '%' ∧ c ≠ '/' := by
    intro c hc
    obtain ⟨n, rfl⟩ := exists_hexDigit (List.all_eq_true.1 h c hc)
    clear hc
    revert n
    decide
  have hurl : setUrl nonce = ['/'].intercalate [[], ['s', 'e', 't'],
      ['a', 'e', 'g', 'i', 's', '%', '3', 'A', 'n', 'o', 'n', 'c', 'e', '%', '3', 'A'] ++ nonce,
      ['1'], ['N', 'X'], ['E', 'X'], ['9', '6', '0']] := by
    simp only [List.intercalate_cons_cons, List.intercalate_singleton, setUrl, List.append_assoc]
    rfl
  have hkey : Url.decodeUtf8 none (Url.percentDecode
      (['a', 'e', 'g', 'i', 's', '%', '3', 'A', 'n', 'o', 'n', 'c', 'e', '%', '3', 'A'] ++ nonce)) =
      edgeKey nonce := by
    conv_rhs => rw [edgeKey, ← Url.decodeUtf8_percentDecode (fun c hc => (hplain c hc).1)
      fun c hc => (hplain c hc).2.1]
    rfl
  rw [setCommand, restCommand, hurl, List.splitOn_intercalate '/' ?_ (List.cons_ne_nil _ _)]
  · simp only [List.drop_succ_cons, List.drop_zero, List.map_cons, List.map_nil, hkey]
    rfl
  · simp only [List.forall_mem_cons, List.mem_append, not_or, List.not_mem_nil, not_false_eq_true,
      false_implies, implies_true, and_true, true_and]
    exact ⟨by decide, ⟨by decide, fun hmem => (hplain _ hmem).2.2 rfl⟩, by decide, by decide,
      by decide, by decide⟩

/-! ## Calls under way -/

/-- A request to the worker or a call of `Validate`, with what is left of it and whether it has set
its key. -/
inductive Call
  | edge (request : Request) (rest : Routine (Option Response)) (claimed : Bool)
  | origin (tok : Auth.SignedToken (List Char))
      (rest : Auth.Routine (List UInt8) (Except Auth.AuthError Unit)) (claimed : Bool)

/-- The fields of a request. -/
def Request.fields? (request : Request) : Option Fields :=
  (Url.splitWeb request.url).bind readFields

/-- The nonce of a request, or nothing. -/
def Request.nonce (request : Request) : List Char :=
  (request.fields?.map Fields.nonce).getD []

theorem fields?_of_reads {request : Request} (h : request.Reads f) : request.fields? = some f := by
  obtain ⟨url, hurl, -, hread⟩ := h
  rw [Request.fields?, hurl, Option.bind_some, hread]

theorem nonce_of_reads {request : Request} (h : request.Reads f) : request.nonce = f.nonce := by
  rw [Request.nonce, fields?_of_reads h]
  rfl

variable {c c' : Call}

namespace Call

def nonce : Call → List Char
  | .edge request _ _ => request.nonce
  | .origin tok _ _ => tok.claims.nonceHex

def claimed : Call → Bool
  | .edge _ _ claimed => claimed
  | .origin _ _ claimed => claimed

/-- The call has ended with a 200, or with `(true, nil)`. -/
def accepted : Call → Bool
  | .edge _ (.ret r) _ => r.map Response.status == some 200
  | .origin _ (.ret (.ok ())) _ => true
  | _ => false

/-- The call carries the token. -/
def Presents (st : Auth.SignedToken (List Char)) : Call → Prop
  | .edge request _ _ => request.fields? = some (fieldsOf st st.claims.expiryUnix.toInt)
  | .origin tok _ _ => tok = st

/-- The next command of the call sets its key. -/
def consuming : Call → Bool
  | .edge _ (.call (.upstash _) _) _ => true
  | .origin _ (.call (.consume _ _) _) _ => true
  | _ => false

variable (sha256 : List Char → Hash)

/-- The key that the call sets. -/
def key : Call → List Char
  | .edge request _ _ => edgeKey request.nonce
  | .origin tok _ _ => Auth.nonceKey sha256 tok.claims.nonceHex

/-- The key that the other layer sets for the same nonce. -/
def otherKey : Call → List Char
  | .edge request _ _ => Auth.nonceKey sha256 request.nonce
  | .origin tok _ _ => edgeKey tok.claims.nonceHex

/-- Two calls for one nonce set the same key, or each the other one's other key. -/
theorem key_eq (h : c.nonce = c'.nonce) :
    c'.key sha256 = c.key sha256 ∨ c'.key sha256 = c.otherKey sha256 := by
  cases c with
  | edge request rest claimed =>
    cases c' with
    | edge request' rest' claimed' => exact .inl (congrArg edgeKey h.symm)
    | origin tok' rest' claimed' => exact .inr (congrArg (Auth.nonceKey sha256) h.symm)
  | origin tok rest claimed =>
    cases c' with
    | edge request' rest' claimed' => exact .inr (congrArg edgeKey h.symm)
    | origin tok' rest' claimed' => exact .inl (congrArg (Auth.nonceKey sha256) h.symm)

/-- Calls that carry one token have its nonce. -/
theorem Presents.nonce_eq (h : c.Presents st) : c.nonce = st.claims.nonceHex := by
  cases c with
  | edge request rest claimed =>
    have hfields : request.fields? = some (fieldsOf st st.claims.expiryUnix.toInt) := h
    rw [nonce, Request.nonce, hfields]
    rfl
  | origin tok rest claimed => exact congrArg (fun tok => tok.claims.nonceHex) h

end Call

/-! ## Acceptance needs a key that was set -/

/-- The request does not go to Redis. -/
def Spent : Routine (Option Response) → Prop
  | .ret _ => True
  | .call c next => (∀ url, c ≠ .upstash url) ∧ ∀ a, Spent (next a)

/-- The request passes only after it has set the key of the nonce, and sets it once. -/
def Unspent (nonce : List Char) : Routine (Option Response) → Prop
  | .ret r => ¬ Passes r
  | .call (.upstash url) next =>
    url = setUrl nonce ∧ (∀ a : Reply, a.said = some true → Spent (next a)) ∧
      ∀ a : Reply, a.said ≠ some true → Unspent nonce (next a)
  | .call .dateNow next => ∀ a, Unspent nonce (next a)
  | .call (.getKeys _) next => ∀ a, Unspent nonce (next a)

variable {hmac : Auth.Hmac}

theorem verify_unspent (f : Fields) (version : Option Value) (active : Bool) :
    Unspent f.nonce (verify hmac f version active) := by
  unfold verify
  cases version with
  | none => exact not_passes_unauthorized _
  | some v =>
    dsimp only
    split
    · split
      · exact not_passes_unauthorized _
      · exact not_passes_unauthorized _
      · refine ⟨rfl, fun _ _ => trivial, fun reply hreply hpass => ?_⟩
        exact hreply (said_of_passes hpass)
    · exact not_passes_unauthorized _

theorem unspent_dateNow (h : ∀ now, Unspent nonce (next now)) : Unspent nonce (dateNow >>= next) :=
  h

theorem unspent_inOverlap (version : Option Value) (h : ∀ b, Unspent nonce (next b)) :
    Unspent nonce (inOverlap version >>= next) := by
  unfold inOverlap
  split
  · exact h _
  · exact unspent_dateNow fun now => h _

theorem authenticate_unspent (f : Fields) (record : Value) :
    Unspent f.nonce (authenticate hmac f record) := by
  unfold authenticate
  split
  · exact fun h => by cases h
  · refine unspent_inOverlap _ fun b => ?_
    split
    · exact fun h => by cases h
    · exact verify_unspent f _ _

theorem unspent_getKeys (h : ∀ keys, Unspent nonce (next keys)) :
    Unspent nonce (getKeys name >>= next) :=
  h

theorem validate_unspent (f : Fields) : Unspent f.nonce (validate hmac f) := by
  refine unspent_dateNow fun now => ?_
  split
  · exact not_passes_unauthorized _
  · refine unspent_getKeys fun keys => ?_
    split
    · exact not_passes_unauthorized _
    · split
      · exact authenticate_unspent f _
      · exact not_passes_unauthorized _

/-- **A request passes only after it has set the key of its nonce.** -/
theorem fetch_unspent (request : Request) : Unspent request.nonce (fetch hmac request) := by
  unfold fetch
  split
  · exact nofun
  · next url hurl =>
    split
    · next hroute =>
      split
      · exact not_passes_unauthorized _
      · next f hf =>
        rw [nonce_of_reads ⟨url, hurl, hroute, hf⟩]
        exact validate_unspent f
    · exact not_passes_unauthorized _

/-- The nonce of a request is hexadecimal. -/
theorem nonce_lowerHex (request : Request) : request.nonce.all isLowerHexDigit = true := by
  unfold Request.nonce
  cases hf : request.fields? with
  | none => rfl
  | some f =>
    obtain ⟨url, -, hread⟩ := Option.bind_eq_some_iff.1 hf
    simp only [readFields, Option.bind_eq_bind, Option.bind_eq_some_iff, Option.filter_eq_some_iff,
      Option.pure_def, Option.some.injEq] at hread
    obtain ⟨-, -, -, -, -, -, -, -, -, -, nonce, ⟨-, hnonce⟩, -, -, rfl⟩ := hread
    simp only [isValidLowerHex, matchesAll, Bool.and_eq_true] at hnonce
    exact hnonce.2.2

/-! ## Runs -/

/-- The clock, Redis and the calls. -/
structure Layers where
  clock : Time
  redis : Auth.Expiries
  calls : List Call

/-- What a call is answered by others than the clock and Redis, and how Redis fails, if it does:
with or without its effect, and with a reply that does not say whether the key was set. -/
structure Answers where
  keys : Except String Value
  origin : (c : Auth.Cmd) → Auth.Answer (List UInt8) c
  fault : Option (Bool × Reply × String)

/-- Time passes, a call begins, or a call gets its next answer. -/
inductive Move
  | tick (d : Nat)
  | fetch (request : Request)
  | validate (tok : Auth.SignedToken (List Char))
  | resume (i : Nat) (answers : Answers)

namespace Layers

def put (s : Layers) (redis : Auth.Expiries) (i : Nat) (c : Call) : Layers :=
  { s with redis := redis, calls := s.calls.set i c }

/-- What Redis replies to the worker, and what it holds then. -/
def serveRest (s : Layers) (url : List Char) : Reply × Auth.Expiries :=
  match setCommand url with
  | none => (.response 400 none, s.redis)
  | some (key, seconds) =>
    let (fresh, redis) := s.redis.setNX s.clock key (s.clock + seconds * 10 ^ 9)
    (.response 200 (some (if fresh then some ['O', 'K'] else none)), redis)

/-- The next answer to a request at the edge. -/
def resumeEdge (s : Layers) (i : Nat) (answers : Answers) (request : Request) (claimed : Bool) :
    Routine (Option Response) → Option Layers
  | .ret _ => none
  | .call .dateNow next => some (s.put s.redis i (.edge request (next (s.clock / 10 ^ 6)) claimed))
  | .call (.getKeys _) next => some (s.put s.redis i (.edge request (next answers.keys) claimed))
  | .call (.upstash url) next =>
    let (reply, redis) := s.serveRest url
    match answers.fault with
    | none => some (s.put redis i (.edge request (next reply) (claimed || reply.said == some true)))
    | some (applied, fault, _) =>
      if fault.said = none then
        some (s.put (if applied then redis else s.redis) i (.edge request (next fault) claimed))
      else none

/-- The next answer to a call at the origin. -/
def resumeOrigin (sha256 : List Char → Hash) (s : Layers) (i : Nat) (answers : Answers)
    (tok : Auth.SignedToken (List Char)) (claimed : Bool) :
    Auth.Routine (List UInt8) (Except Auth.AuthError Unit) → Option Layers
  | .ret _ => none
  | .call .now next => some (s.put s.redis i (.origin tok (next s.clock) claimed))
  | .call (.consume nonce ttl) next =>
    let (fresh, redis) := (Auth.redisNonceStore sha256).consume s.redis s.clock nonce ttl
    match answers.fault with
    | none => some (s.put redis i (.origin tok (next (.ok fresh)) (claimed || fresh)))
    | some (applied, _, err) =>
      some (s.put (if applied then redis else s.redis) i (.origin tok (next (.error err)) claimed))
  | .call c next => some (s.put s.redis i (.origin tok (next (answers.origin c)) claimed))

variable (hmac : Auth.Hmac) (sha256 : List Char → Hash)
  (g : Auth.TokenGenerator (List UInt8) (List UInt8) (List Char))

/-- One move, if it is possible. -/
def step (s : Layers) : Move → Option Layers
  | .tick d => some { s with clock := s.clock + d }
  | .fetch request => some { s with calls := s.calls ++ [.edge request (fetch hmac request) false] }
  | .validate tok => some { s with calls := s.calls ++ [.origin tok (g.validate tok) false] }
  | .resume i answers =>
    match s.calls[i]? with
    | none => none
    | some (.edge request rest claimed) => s.resumeEdge i answers request claimed rest
    | some (.origin tok rest claimed) => s.resumeOrigin sha256 i answers tok claimed rest

/-- No entry has expired. -/
def NoneExpired (s : Layers) : Prop := ∀ k exp, s.redis.lookup k = some exp → s.clock < exp

/-- When a call sets its key, the other layer's key for its nonce is not there. -/
def Apart (s : Layers) : Move → Prop
  | .resume i _ => ∀ c ∈ s.calls[i]?, c.consuming = true → s.redis.lookup (c.otherKey sha256) = none
  | _ => True

/-- No token is accepted by two calls. -/
def SingleUse (s : Layers) : Prop :=
  ∀ (st : Auth.SignedToken (List Char)) (i j : Nat) (c c' : Call), s.calls[i]? = some c →
    s.calls[j]? = some c' → c.accepted = true → c'.accepted = true → c.Presents st →
    c'.Presents st → i = j

end Layers

/-! ## The invariant -/

/-- Where a call stands with its key: it has still to set it, or has set it and is done with
that. -/
def Call.Tracked (ttl : Time) : Call → Prop
  | .edge request rest false => Unspent request.nonce rest
  | .edge _ rest true => Spent rest
  | .origin tok rest false => Auth.Unspent tok.claims.nonceHex ttl rest
  | .origin _ rest true => Auth.Spent rest

/-- A call that is accepted has set its key. -/
theorem Call.Tracked.claimed_of_accepted (h : c.Tracked ttl) (haccepted : c.accepted = true) :
    c.claimed = true := by
  match c with
  | .edge request rest true => rfl
  | .origin tok rest true => rfl
  | .edge request (.ret r) false => exact absurd (beq_iff_eq.1 haccepted) h
  | .edge request (.call c next) false => cases haccepted
  | .origin tok (.ret (.ok ())) false => exact absurd rfl h
  | .origin tok (.ret (.error e)) false => cases haccepted
  | .origin tok (.call c next) false => cases haccepted

namespace Layers

variable {sha256 : List Char → Hash} {g : Auth.TokenGenerator (List UInt8) (List UInt8) (List Char)}
  {ttl : Time} {s s' : Layers}

/-- What an answer to the call `c` does: the call goes on as `c'`, with the same nonce and in the
same layer, and Redis is as it was or has been asked to set the key of the call; and if that is how
the call comes to have set its key, then the key was not there. -/
structure Resumes (sha256 : List Char → Hash) (ttl : Time) (s s' : Layers) (i : Nat) (c c' : Call) :
    Prop where
  calls : s'.calls = s.calls.set i c'
  nonce : c'.nonce = c.nonce
  key : c'.key sha256 = c.key sha256
  tracked : c'.Tracked ttl
  redis : s'.redis = s.redis ∨ ∃ exp, s'.redis = (s.redis.setNX s.clock (c.key sha256) exp).2
  claimed : c'.claimed = true → c.claimed = true ∨ (c.consuming = true ∧
    ∃ exp, (s.redis.setNX s.clock (c.key sha256) exp).1 = true ∧
      s'.redis = (s.redis.setNX s.clock (c.key sha256) exp).2)

/-- What Redis replies to the worker. -/
theorem serveRest_setUrl (s : Layers) (request : Request) :
    ∃ exp, (s.serveRest (setUrl request.nonce)).1.said =
        some (s.redis.setNX s.clock (edgeKey request.nonce) exp).1 ∧
      (s.serveRest (setUrl request.nonce)).2 =
        (s.redis.setNX s.clock (edgeKey request.nonce) exp).2 := by
  refine ⟨s.clock + 960 * 10 ^ 9, ?_⟩
  rw [serveRest, setCommand_setUrl (nonce_lowerHex request)]
  dsimp only
  refine ⟨?_, rfl⟩
  cases (s.redis.setNX s.clock (edgeKey request.nonce) (s.clock + 960 * 10 ^ 9)).1 <;> rfl

variable {i : Nat} {answers : Answers}

/-- **An answer at the edge.** -/
theorem resumeEdge_resumes (htracked : (Call.edge request rest claimed).Tracked ttl)
    (h : s.resumeEdge i answers request claimed rest = some s') :
    ∃ c', Resumes sha256 ttl s s' i (.edge request rest claimed) c' := by
  unfold resumeEdge at h
  split at h
  · cases h
  · next next =>
    cases h
    refine ⟨.edge request (next (s.clock / 10 ^ 6)) claimed, rfl, rfl, rfl, ?_, .inl rfl, .inl⟩
    cases claimed with
    | false => exact htracked _
    | true => exact htracked.2 _
  · next name next =>
    cases h
    refine ⟨.edge request (next answers.keys) claimed, rfl, rfl, rfl, ?_, .inl rfl, .inl⟩
    cases claimed with
    | false => exact htracked _
    | true => exact htracked.2 _
  · next url next =>
    cases claimed with
    | true => exact absurd rfl (htracked.1 url)
    | false =>
      obtain ⟨rfl, hspent, hunspent⟩ := htracked
      obtain ⟨exp, hsaid, hredis⟩ := s.serveRest_setUrl request
      dsimp only at h
      split at h
      · cases h
        refine ⟨_, rfl, rfl, rfl, ?_, .inr ⟨exp, hredis⟩,
          fun hclaimed => .inr ⟨rfl, exp, ?_, hredis⟩⟩
        · rw [hsaid]
          cases hfresh : (s.redis.setNX s.clock (edgeKey request.nonce) exp).1 with
          | true => exact hspent _ (hsaid.trans (congrArg some hfresh))
          | false =>
            refine hunspent _ fun htrue => ?_
            rw [hsaid, hfresh] at htrue
            cases htrue
        · have hsome : (s.serveRest (setUrl request.nonce)).1.said = some true :=
            beq_iff_eq.1 (show ((s.serveRest (setUrl request.nonce)).1.said == some true) = true
              from hclaimed)
          exact Option.some.inj (hsaid.symm.trans hsome)
      · next applied fault err _ =>
        split at h
        · next hfault =>
          cases h
          refine ⟨.edge request (next fault) false, rfl, rfl, rfl, hunspent _ ?_, ?_, .inl⟩
          · rw [hfault]
            nofun
          · cases applied with
            | true => exact .inr ⟨exp, hredis⟩
            | false => exact .inl rfl
        · cases h

/-- **An answer at the origin.** -/
theorem resumeOrigin_resumes (htracked : (Call.origin tok rest claimed).Tracked ttl)
    (h : s.resumeOrigin sha256 i answers tok claimed rest = some s') :
    ∃ c', Resumes sha256 ttl s s' i (.origin tok rest claimed) c' := by
  have hplain : ∀ (c : Auth.Cmd) (next : Auth.Answer (List UInt8) c →
      Auth.Routine (List UInt8) (Except Auth.AuthError Unit)) (a : Auth.Answer (List UInt8) c),
      (∀ n d, c ≠ .consume n d) → (Call.origin tok (.call c next) claimed).Tracked ttl →
      (Call.origin tok (next a) claimed).Tracked ttl := by
    intro c next a hc htracked
    cases claimed with
    | false => exact Auth.Unspent.next hc htracked a
    | true => exact htracked.2 a
  unfold resumeOrigin at h
  split at h
  · cases h
  · next next =>
    cases h
    exact ⟨.origin tok (next s.clock) claimed, rfl, rfl, rfl,
      hplain .now next s.clock nofun htracked,
      .inl rfl, .inl⟩
  · next nonce d next =>
    cases claimed with
    | true => exact absurd rfl (htracked.1 nonce d)
    | false =>
      obtain ⟨rfl, rfl, hspent, hunspent⟩ := htracked
      dsimp only at h
      split at h
      · cases h
        refine ⟨_, rfl, rfl, rfl, ?_, .inr ⟨_, rfl⟩, fun hclaimed => .inr ⟨rfl, _, hclaimed, rfl⟩⟩
        cases hfresh : ((Auth.redisNonceStore sha256).consume s.redis s.clock
            tok.claims.nonceHex d).1 with
        | true => exact hspent
        | false => exact hunspent (.ok false) nofun
      · next applied fault err _ =>
        cases h
        refine ⟨.origin tok (next (.error err)) false, rfl, rfl, rfl, hunspent _ nofun, ?_, .inl⟩
        cases applied with
        | true => exact .inr ⟨_, rfl⟩
        | false => exact .inl rfl
  · next c next _ hc =>
    cases h
    refine ⟨.origin tok (next (answers.origin c)) claimed, rfl, rfl, rfl,
      hplain _ _ _ ?_ htracked, .inl rfl, .inl⟩
    rintro n d rfl
    exact hc n d next rfl HEq.rfl

/-- What `resume` does. -/
theorem resume_cases (htracked : ∀ c ∈ s.calls, c.Tracked ttl)
    (h : s.step hmac sha256 g (.resume i answers) = some s') :
    ∃ c c', s.calls[i]? = some c ∧ Resumes sha256 ttl s s' i c c' := by
  unfold step at h
  dsimp only at h
  split at h
  · cases h
  · next request rest claimed hc =>
    obtain ⟨c', hresumes⟩ := resumeEdge_resumes (htracked _ (List.mem_of_getElem? hc)) h
    exact ⟨_, c', hc, hresumes⟩
  · next tok rest claimed hc =>
    obtain ⟨c', hresumes⟩ := resumeOrigin_resumes (htracked _ (List.mem_of_getElem? hc)) h
    exact ⟨_, c', hc, hresumes⟩

/-- **The invariant**: every call is tracked, the keys that were set are there, and of the calls
with one nonce only one has set its key. -/
structure Guarded (sha256 : List Char → Hash) (ttl : Time) (s : Layers) : Prop where
  tracked : ∀ c ∈ s.calls, c.Tracked ttl
  held : ∀ c ∈ s.calls, c.claimed = true → (s.redis.lookup (c.key sha256)).isSome = true
  once : Auth.OneEach (fun c => Call.claimed c = true) Call.nonce s.calls

theorem guarded_init (clock : Time) (redis : Auth.Expiries) :
    Guarded sha256 ttl ⟨clock, redis, []⟩ where
  tracked := nofun
  held := nofun
  once := by
    intro i j c c' hc
    cases hc

/-- A call has begun. -/
def starting (s : Layers) (c : Call) : Layers := { s with calls := s.calls ++ [c] }

/-- A call begins without a key. -/
theorem Guarded.begin (hs : Guarded sha256 ttl s) (htracked : c.Tracked ttl)
    (hclaimed : c.claimed = false) : Guarded sha256 ttl (s.starting c) where
  tracked := by
    intro c' hc'
    rcases List.mem_append.1 hc' with hc' | hc'
    · exact hs.tracked c' hc'
    · obtain rfl := List.mem_singleton.1 hc'
      exact htracked
  held := by
    intro c' hc' hclaimed'
    rcases List.mem_append.1 hc' with hc' | hc'
    · exact hs.held c' hc' hclaimed'
    · obtain rfl := List.mem_singleton.1 hc'
      rw [hclaimed] at hclaimed'
      cases hclaimed'
  once := hs.once.append_singleton fun hclaimed' =>
    Bool.false_ne_true (hclaimed.symm.trans hclaimed')

/-- A key that was set stays, and so does one that a call sets. -/
theorem Resumes.held (h : Resumes sha256 ttl s s' i c c') (hk : (s.redis.lookup k).isSome = true) :
    (s'.redis.lookup k).isSome = true := by
  rcases h.redis with hredis | ⟨exp, hredis⟩
  · rw [hredis]
    exact hk
  · rw [hredis]
    exact Auth.Expiries.isSome_lookup_setNX hk

/-- **A call that sets its key** is the only one with its nonce to do so: another one's key would be
this call's, which was not live and hence not there, or the other layer's, which is not there. -/
theorem Guarded.fresh (hs : Guarded sha256 ttl s) (hnone : s.NoneExpired)
    (hfresh : (s.redis.setNX s.clock (c.key sha256) exp).1 = true)
    (hapart : s.redis.lookup (c.otherKey sha256) = none) (hc' : c' ∈ s.calls)
    (hclaimed : c'.claimed = true) : c.nonce ≠ c'.nonce := by
  intro hnonce
  obtain ⟨exp', hlookup⟩ := Option.isSome_iff_exists.1 (hs.held c' hc' hclaimed)
  rcases c.key_eq sha256 hnonce with hkey | hkey
  · rw [hkey] at hlookup
    exact Auth.Expiries.setNX_fst.1 hfresh
      (Auth.Expiries.live_iff.2 ⟨exp', hlookup, hnone _ exp' hlookup⟩)
  · rw [hkey, hapart] at hlookup
    cases hlookup

theorem Guarded.resume (hs : Guarded sha256 ttl s) (hnone : s.NoneExpired)
    (hc : s.calls[i]? = some c) (h : Resumes sha256 ttl s s' i c c')
    (hapart : c.consuming = true → s.redis.lookup (c.otherKey sha256) = none) :
    Guarded sha256 ttl s' where
  tracked := by
    intro d hd
    rw [h.calls] at hd
    rcases List.mem_or_eq_of_mem_set hd with hd | rfl
    · exact hs.tracked d hd
    · exact h.tracked
  held := by
    intro d hd hclaimed
    rw [h.calls] at hd
    rcases List.mem_or_eq_of_mem_set hd with hd | rfl
    · exact h.held (hs.held d hd hclaimed)
    · rw [h.key]
      rcases h.claimed hclaimed with hclaimed | ⟨-, exp, hfresh, hredis⟩
      · exact h.held (hs.held c (List.mem_of_getElem? hc) hclaimed)
      · rw [hredis, Auth.Expiries.lookup_setNX_fresh hfresh]
        rfl
  once := by
    rw [h.calls]
    refine hs.once.set fun hclaimed j d hd hne hclaimed' => ?_
    rw [h.nonce]
    rcases h.claimed hclaimed with hclaimed | ⟨hconsuming, exp, hfresh, -⟩
    · exact fun hnonce => hne (hs.once j i d c hd hc hclaimed' hclaimed hnonce.symm)
    · exact hs.fresh hnone hfresh (hapart hconsuming) (List.mem_of_getElem? hd) hclaimed'

/-- One step. -/
theorem Guarded.step (hs : Guarded sha256 (g.ttl + g.skew) s)
    (hok : s.NoneExpired ∧ s.Apart sha256 m) (h : s.step hmac sha256 g m = some s') :
    Guarded sha256 (g.ttl + g.skew) s' := by
  cases m with
  | tick d =>
    cases h
    exact ⟨hs.tracked, hs.held, hs.once⟩
  | fetch request =>
    cases h
    exact hs.begin (fetch_unspent request) rfl
  | validate tok =>
    cases h
    exact hs.begin (g.validate_unspent tok) rfl
  | resume i answers =>
    obtain ⟨c, c', hc, hresumes⟩ := resume_cases hs.tracked h
    exact hs.resume hok.1 hc hresumes (hok.2 c hc)

/-- **Single use across the layers**: no entry expires during the run, and whenever a call sets its
key the other layer's key for the nonce is not there. Then no token is accepted by two calls. -/
theorem singleUse_of_apart (hmac : Auth.Hmac)
    (sha256 : List Char → Hash) (g : Auth.TokenGenerator (List UInt8) (List UInt8) (List Char))
    (clock : Time) (redis : Auth.Expiries) (ms : List Move) (s' : Layers)
    (hok : Run.Throughout (step hmac sha256 g) (fun s m => s.NoneExpired ∧ s.Apart sha256 m)
      ⟨clock, redis, []⟩ ms)
    (hrun : Run.run (step hmac sha256 g) ⟨clock, redis, []⟩ ms = some s') : s'.SingleUse := by
  have hs : Guarded sha256 (g.ttl + g.skew) s' :=
    hok.run_induction (fun hs hok h => hs.step hok h) (guarded_init clock redis) hrun
  intro st i j c c' hc hc' hacc hacc' hst hst'
  have hclaimed := (hs.tracked c (List.mem_of_getElem? hc)).claimed_of_accepted hacc
  have hclaimed' := (hs.tracked c' (List.mem_of_getElem? hc')).claimed_of_accepted hacc'
  exact hs.once i j c c' hc hc' hclaimed hclaimed' (hst.nonce_eq.trans hst'.nonce_eq.symm)

end Layers

/-! ## What the layers ask for a token they accept -/

/-- What the worker asks for fields that pass with the current key: the time, the keys, and to set
the key of the nonce. -/
theorem validate_asks {record : KeysRecord} (hfresh : checkFreshness now f.ts = none)
    (hversion : record.versions.lookup (integerText f.kv) = some ⟨key, none⟩)
    (hcurrent : (Number.finite f.kv).strictEq record.current = true)
    (hverify : hmacVerify hmac key f.message f.sig = some true) :
    ∃ next, validate hmac f = .call .dateNow next ∧
      ∃ name next', next now = .call (.getKeys name) next' ∧
        next' (.ok record.value) =
          .call (.upstash (setUrl f.nonce)) fun reply : Reply => .ret reply.response? := by
  have hkeys : ∃ next', (∃ next, validate hmac f = .call .dateNow next ∧
      next now = getKeys (keysName f.tenant) >>= next') ∧
        next' (.ok record.value) = authenticate hmac f record.value := by
    refine ⟨?_, ⟨_, rfl, ?_⟩, ?_⟩
    rotate_left
    · dsimp only [Proc.bind]
      rw [hfresh]
    · rfl
  obtain ⟨next', ⟨next, hdate, hnext⟩, hrecord⟩ := hkeys
  refine ⟨next, hdate, _, next', hnext, hrecord.trans ?_⟩
  unfold authenticate
  rw [versions?_value]
  dsimp only
  rw [version?_value, hversion, isCurrent_value, hcurrent]
  show verify hmac f (some (KeyVersion.value ⟨key, none⟩)) true = _
  unfold verify
  dsimp only
  rw [if_pos rfl, verifyWith_value, hverify]
  rfl

/-- What `Validate` asks for a token that it accepts without an ownership checker: the time, the
key, and to consume the nonce. -/
theorem origin_asks {g : Auth.TokenGenerator (List UInt8) (List UInt8) (List Char)}
    {tok : Auth.SignedToken (List Char)} {t : Time}
    (hform : g.checkStructure tok = none) (hfresh : g.checkFreshness t tok.claims = none)
    (hmac : g.mac.decode tok.signatureHex = some (g.mac.compute key tok.claims.message))
    (hedge : g.hasOwnership = false) :
    ∃ next, g.validate tok = .call .now next ∧
      ∃ u v next', next t = .call (.verificationKey u v) next' ∧
        ∃ next'', next' (.ok (some key)) =
            .call (.consume tok.claims.nonceHex (g.ttl + g.skew)) next'' ∧
          next'' (.ok true) = .ret (.ok ()) := by
  have hvalidate : ∃ next, g.validate tok = .call .now next ∧ next t = g.authenticate tok := by
    unfold Auth.TokenGenerator.validate
    rw [hform]
    dsimp only
    refine ⟨_, rfl, ?_⟩
    dsimp only [Proc.bind]
    rw [hfresh]
  have hauth : ∃ u v next', g.authenticate tok = .call (.verificationKey u v) next' ∧
      next' (.ok (some key)) = g.redeem tok.claims := by
    refine ⟨_, _, _, rfl, ?_⟩
    rw [hmac]
    exact if_pos rfl
  have hredeem : ∃ next'', g.redeem tok.claims =
      .call (.consume tok.claims.nonceHex (g.ttl + g.skew)) next'' ∧
        next'' (.ok true) = .ret (.ok ()) := by
    refine ⟨_, rfl, ?_⟩
    show g.checkOwnership tok.claims = _
    unfold Auth.TokenGenerator.checkOwnership
    rw [if_neg (by simp [hedge])]
    rfl
  obtain ⟨next, hnow, hnext⟩ := hvalidate
  obtain ⟨u, v, next', hkey, hnext'⟩ := hauth
  exact ⟨next, hnow, u, v, next', hnext.trans hkey, hnext'.symm ▸ hredeem⟩

namespace Layers

theorem noneExpired_insert {s : Layers} (h : s.NoneExpired) (k : List Char) {d : Time} (hd : 0 < d)
    (calls : List Call) : NoneExpired ⟨s.clock, s.redis.insert k (s.clock + d), calls⟩ := by
  intro k' exp hexp
  rw [Table.lookup_insert_eq] at hexp
  split at hexp
  · cases hexp
    exact Int.lt_add_of_pos_right s.clock hd
  · exact h k' exp hexp

end Layers

/-! ## The same token twice at the edge, and once in each layer -/

/-- The keys that the edge and the origin have for the sample token, and Redis does not fail. -/
def sampleAnswers : Answers where
  keys := .ok (KeysRecord.value ⟨.ofInt 1, [(['1'], ⟨encodeToString [7], none⟩)]⟩)
  origin
    | .now => (0 : Time)
    | .signingKey _ => .ok (1, [7])
    | .verificationKey _ _ => .ok (some [7])
    | .randRead => .error "not asked for"
    | .consume _ _ => .error "not asked for"
    | .ownsBlock _ _ => .error "not asked for"
  fault := none

section
variable (hmac : Auth.Hmac)

def sampleRequest : Request := ⟨"PUT", (sampleToken hmac).url sampleBase.text⟩

/-- A whole request to the edge with the sample token, as the `i`-th call. -/
def sampleFetch (i : Nat) : List Move :=
  .fetch (sampleRequest hmac) :: List.replicate 3 (.resume i sampleAnswers)

/-- A whole call at the origin with the sample token, as the `i`-th call. -/
def sampleValidate (i : Nat) : List Move :=
  .validate (sampleToken hmac) :: List.replicate 3 (.resume i sampleAnswers)

theorem integer?_sample : (Number.ofInt 1000).integer? = some 1000 := by decide +kernel

/-- The sample request carries the sample token. -/
theorem reads_sampleRequest : (sampleRequest hmac).Reads (fieldsOf (sampleToken hmac) 1000) :=
  (reads_url (sampleToken_wellFormed hmac) sampleBase).2 ⟨1000, integer?_sample, rfl⟩

theorem nonce_sampleRequest : (sampleRequest hmac).nonce = sampleClaims.nonceHex := by
  rw [nonce_of_reads (reads_sampleRequest hmac)]
  rfl

/-- What the worker asks for the sample token at 500 s. -/
theorem asks_sampleFetch : ∃ next, fetch hmac (sampleRequest hmac) = .call .dateNow next ∧
    ∃ name next', next (500 * 10 ^ 9 / 10 ^ 6 : Int) = .call (.getKeys name) next' ∧
      next' sampleAnswers.keys =
        .call (.upstash (setUrl (sampleRequest hmac).nonce)) fun reply : Reply =>
          .ret reply.response? := by
  have hst := sampleToken_wellFormed hmac
  have hfresh : checkFreshness (500 * 10 ^ 9 / 10 ^ 6) 1000 = none := by decide +kernel
  have htext : integerText 1 = ['1'] := by decide +kernel
  have hcurrent : (Number.finite ((1 : Int) : ℚ)).strictEq (.ofInt 1) = true := by decide +kernel
  have hmessage : (fieldsOf (sampleToken hmac) 1000).message = sampleClaims.message :=
    message_fieldsOf hst (by simp [Number.safe_iff]) rfl
  have hversion : [(['1'], (⟨encodeToString [7], none⟩ : KeyVersion))].lookup (integerText 1) =
      some ⟨encodeToString [7], none⟩ := by
    rw [htext]
    rfl
  have hverify : hmacVerify hmac (encodeToString [7]) (fieldsOf (sampleToken hmac) 1000).message
      (sampleToken hmac).signatureHex = some true := by
    rw [hmessage]
    exact (hmacVerify_iff hst (hexBytes_encodeToString [7]) (by decide)).2
      (decodeString_encodeToString _)
  rw [fetch_of_reads (reads_sampleRequest hmac), nonce_sampleRequest]
  exact validate_asks hfresh hversion hcurrent hverify

/-- What `Validate` asks for the sample token at 500 s. -/
theorem asks_sampleValidate :
    ∃ next, (originValidator hmac).validate (sampleToken hmac) = .call .now next ∧
      ∃ u v next', next (500 * 10 ^ 9 : Time) = .call (.verificationKey u v) next' ∧
        ∃ next'', next' (sampleAnswers.origin (.verificationKey u v)) =
            .call (.consume (sampleToken hmac).claims.nonceHex
              ((originValidator hmac).ttl + (originValidator hmac).skew)) next'' ∧
          next'' (.ok true) = .ret (.ok ()) := by
  have hform := checkStructure_eq_none hmac (sampleToken_wellFormed hmac)
  have hfresh := (originValidator hmac).checkFreshness_eq_none
    (show (originValidator hmac).ttl = (900 : Nat) * 10 ^ 9 from rfl)
    (show (originValidator hmac).skew = (60 : Nat) * 10 ^ 9 from rfl) (by decide)
    (show (500 * 10 ^ 9 : Int) / 10 ^ 9 = 500 by decide) (by decide) (by decide)
    sampleClaims
  exact origin_asks hform (hfresh.2 (by decide)) (decodeString_encodeToString _) rfl

end

/-- A test of the condition of a run. -/
def Layers.undisturbed (sha256 : List Char → Hash) (s : Layers) (m : Move) : Bool :=
  (s.redis.keysWhere fun _ exp => !(s.clock < exp)).isEmpty &&
    match m with
    | .resume i _ =>
      s.calls[i]?.all fun c => !c.consuming || (s.redis.lookup (c.otherKey sha256)).isNone
    | _ => true

theorem Layers.of_undisturbed (s : Layers) (m : Move) (h : s.undisturbed sha256 m = true) :
    s.NoneExpired ∧ s.Apart sha256 m := by
  obtain ⟨hkeys, hmove⟩ := Bool.and_eq_true_iff.1 h
  constructor
  · intro k exp hexp
    by_contra hnot
    have hmem : k ∈ s.redis.keysWhere fun _ exp => !(s.clock < exp) :=
      Table.mem_keysWhere.2 ⟨exp, hexp, by simpa using hnot⟩
    rw [List.isEmpty_iff.1 hkeys] at hmem
    cases hmem
  · cases m with
    | resume i answers =>
      intro c hc hconsuming
      have hc' : s.calls[i]? = some c := hc
      dsimp only at hmove
      rw [hc'] at hmove
      simpa [hconsuming] using hmove
    | _ => trivial

/-- The sample token is sent to the edge twice, and passes once. -/
theorem singleUse_edgeReplay :
    ∃ s', Run.run (Layers.step constantMac (fun _ => 0) (originValidator constantMac))
        ⟨500 * 10 ^ 9, ∅, []⟩ (sampleFetch constantMac 0 ++ sampleFetch constantMac 1) = some s' ∧
      s'.calls.map Call.accepted = [true, false] ∧ s'.SingleUse := by
  have hrun : (Run.run (Layers.step constantMac (fun _ => 0) (originValidator constantMac))
      ⟨500 * 10 ^ 9, ∅, []⟩ (sampleFetch constantMac 0 ++ sampleFetch constantMac 1)).map
        (fun s => s.calls.map Call.accepted) = some [true, false] := by
    decide +kernel
  obtain ⟨s', hs', haccepted⟩ := Option.map_eq_some_iff.1 hrun
  have hok := Run.Throughout.of_throughout Layers.of_undisturbed
    (show Run.throughout (Layers.step constantMac (fun _ => 0) (originValidator constantMac))
      (Layers.undisturbed fun _ => 0) ⟨500 * 10 ^ 9, ∅, []⟩
      (sampleFetch constantMac 0 ++ sampleFetch constantMac 1) = true by decide +kernel)
  exact ⟨s', hs', haccepted, Layers.singleUse_of_apart _ _ _ _ _ _ _ hok hs'⟩

section
variable (hmac : Auth.Hmac)

/-- The sample request at the edge, with what is left of it. -/
def atEdge (rest : Routine (Option Response)) : Layers :=
  ⟨500 * 10 ^ 9, ∅, [.edge (sampleRequest hmac) rest false]⟩

/-- Redis after the request. -/
def afterEdge : Auth.Expiries :=
  AList.insert (edgeKey (sampleRequest hmac).nonce) (500 * 10 ^ 9 + 960 * 10 ^ 9) ∅

/-- The sample token at the origin after the request, with what is left of the call. -/
def atOrigin (rest : Auth.Routine (List UInt8) (Except Auth.AuthError Unit)) : Layers :=
  ⟨500 * 10 ^ 9, afterEdge hmac, [.edge (sampleRequest hmac) (.ret (some validated)) true,
    .origin (sampleToken hmac) rest false]⟩

end

/-- The sample token passes the edge, and then the origin accepts it: it finds no entry under its
own key. -/
theorem exists_accepted_twice (hmac : Auth.Hmac)
    (sha256 : List Char → Hash) : ∃ s',
      Run.Reaches (Layers.step hmac sha256 (originValidator hmac)) (fun s _ => s.NoneExpired)
        ⟨500 * 10 ^ 9, ∅, []⟩ (sampleFetch hmac 0 ++ sampleValidate hmac 1) s' ∧
      ¬ s'.SingleUse := by
  obtain ⟨next, hdate, name, next', hkeys, hset⟩ := asks_sampleFetch hmac
  obtain ⟨first, hnow, u, v, second, hkey, third, hconsume, hret⟩ := asks_sampleValidate hmac
  have hnone : ∀ calls, Layers.NoneExpired ⟨500 * 10 ^ 9, ∅, calls⟩ := fun _ => nofun
  have hnone' := Layers.noneExpired_insert (hnone []) (edgeKey (sampleRequest hmac).nonce)
    (show (0 : Time) < 960 * 10 ^ 9 by decide)
  have hfree : (afterEdge hmac).live (500 * 10 ^ 9)
      (Auth.nonceKey sha256 (sampleToken hmac).claims.nonceHex) = false := by
    rw [afterEdge, Auth.Expiries.live_insert, nonce_sampleRequest]
    -- the two keys differ in length
    refine if_neg fun hkey => ?_
    have hlength := congrArg List.length hkey
    simp [edgeKey, Auth.nonceKey, sampleToken, sampleClaims] at hlength
  have htime : Layers.step hmac sha256 (originValidator hmac)
      (atEdge hmac (fetch hmac (sampleRequest hmac))) (.resume 0 sampleAnswers) =
        some (atEdge hmac (next (500 * 10 ^ 9 / 10 ^ 6 : Int))) := by
    rw [hdate]
    rfl
  have hrecord : Layers.step hmac sha256 (originValidator hmac)
      (atEdge hmac (next (500 * 10 ^ 9 / 10 ^ 6 : Int))) (.resume 0 sampleAnswers) =
        some (atEdge hmac (next' sampleAnswers.keys)) := by
    rw [hkeys]
    rfl
  have hpass : Layers.step hmac sha256 (originValidator hmac)
      (atEdge hmac (next' sampleAnswers.keys)) (.resume 0 sampleAnswers) =
        some ⟨500 * 10 ^ 9, afterEdge hmac,
          [.edge (sampleRequest hmac) (.ret (some validated)) true]⟩ := by
    rw [hset]
    simp only [Layers.step, atEdge, List.getElem?_cons_zero, Layers.resumeEdge, Layers.serveRest,
      setCommand_setUrl (nonce_lowerHex _)]
    rfl
  have hnow' : Layers.step hmac sha256 (originValidator hmac)
      (atOrigin hmac ((originValidator hmac).validate (sampleToken hmac)))
      (.resume 1 sampleAnswers) = some (atOrigin hmac (first (500 * 10 ^ 9 : Time))) := by
    rw [hnow]
    rfl
  have hkey' : Layers.step hmac sha256 (originValidator hmac)
      (atOrigin hmac (first (500 * 10 ^ 9 : Time))) (.resume 1 sampleAnswers) =
        some (atOrigin hmac (second (sampleAnswers.origin (.verificationKey u v)))) := by
    rw [hkey]
    rfl
  have haccept : Layers.step hmac sha256 (originValidator hmac)
      (atOrigin hmac (second (sampleAnswers.origin (.verificationKey u v))))
      (.resume 1 sampleAnswers) = some ⟨500 * 10 ^ 9,
        (afterEdge hmac).insert (Auth.nonceKey sha256 (sampleToken hmac).claims.nonceHex)
          (500 * 10 ^ 9 + ((originValidator hmac).ttl + (originValidator hmac).skew)),
        [.edge (sampleRequest hmac) (.ret (some validated)) true,
          .origin (sampleToken hmac) (.ret (.ok ())) true]⟩ := by
    rw [hconsume]
    simp only [Layers.step, atOrigin, List.getElem?_cons_succ, List.getElem?_cons_zero,
      Layers.resumeOrigin, Auth.redisNonceStore, Auth.Expiries.setNX_of_not_live hfree, hret]
    rfl
  refine ⟨_, .cons (hnone _) rfl <| .cons (hnone _) htime <| .cons (hnone _) hrecord <|
    .cons (hnone _) hpass <| .cons (hnone' _) rfl <| .cons (hnone' _) hnow' <|
    .cons (hnone' _) hkey' <| .cons (hnone' _) haccept .nil, fun hsingle => ?_⟩
  have hindex := hsingle (sampleToken hmac) 0 1 _ _ rfl rfl rfl rfl
    (fields?_of_reads (reads_sampleRequest hmac)) rfl
  cases hindex

/-- The same with a MAC and a digest that are given. -/
theorem accepted_in_each_layer : ∃ s',
    Run.Reaches (Layers.step constantMac (fun _ => 0) (originValidator constantMac))
      (fun s _ => s.NoneExpired) ⟨500 * 10 ^ 9, ∅, []⟩
      (sampleFetch constantMac 0 ++ sampleValidate constantMac 1) s' ∧
    ¬ s'.SingleUse :=
  exists_accepted_twice constantMac fun _ => 0

end Aegis.Edge
