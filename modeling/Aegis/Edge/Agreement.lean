import Aegis.Auth.Authentic
import Aegis.Auth.Rotation
import Aegis.Edge.Exchange

/-!
# Edge and origin accept the same tokens

A token that is rendered as a URL and sent with `PUT` passes the worker at the edge if and only if
`ParsePreSignedURL` and `Validate` accept it at the origin, with the same keys, the same clock and
the same answer of the nonce store. The two read the same fields (`readFields_url`), although one
has doubles where the other has integers that wrap around: the expiries that either would get wrong
are not fresh for any time that a `Date` can have. The keys are those of one `Provision` and any
`Rotate` calls, mirrored into `TENANT_KEYS`. There a version without `superseded_at` is the current
one; in the key store it is active for ever, which is the same unless a rotation happens at the zero
time, as that is how a record says that it is not superseded.
-/

namespace Aegis.Edge

open Proc Ecma

variable {st : Auth.SignedToken (List Char)}

/-! ## The fields of a rendered token -/

theorem afterHex_append (hlen : a.length = n) (hhex : a.all isLowerHexDigit = true) :
    afterHex n (a ++ b) = some b := by
  subst hlen
  rw [afterHex, List.take_left, List.drop_left, if_pos ⟨rfl, hhex⟩]

theorem isUUID_text (u : Uuid) : isUUID u.text = true := by
  have hhex : ∀ {l : List Char}, l ⊆ u.digits → l.all isLowerHexDigit = true := fun hl =>
    List.all_eq_true.2 fun c hc => isLowerHexDigit_of_mem_hexText (hl hc)
  have hlen : u.digits.length = 32 := length_hexText 32 _
  have hlast : afterHex 12 (u.digits.drop 20) = some [] := by
    have := afterHex_append (n := 12) (b := []) (by rw [List.length_drop, hlen])
      (hhex (List.drop_subset 20 _))
    rwa [List.append_nil] at this
  have hmid : ∀ a b, a ≤ 28 → afterHex 4 ((u.digits.drop a).take 4 ++ b) = some b := by
    intro a b ha
    refine afterHex_append ?_ (hhex (u.group_subset a 4))
    rw [List.length_take, List.length_drop, hlen]
    omega
  have hfirst : ∀ b, afterHex 8 (u.digits.take 8 ++ b) = some b := fun b =>
    afterHex_append (by rw [List.length_take, hlen]; rfl) (hhex (List.take_subset _ _))
  simp only [isUUID, Uuid.text, Uuid.grouped, hfirst, hmid 8 _ (by decide), hmid 12 _ (by decide),
    hmid 16 _ (by decide), hlast, afterDash, Option.bind_some, beq_self_eq_true]

theorem isWordChar_eq (c : Char) : isWordChar c = Auth.isEndpointChar c := by
  unfold isWordChar Auth.isEndpointChar
  ac_rfl

theorem isValidLowerHex_eq (hlen : s.length = n) (hpos : n ≠ 0) (hhex : Auth.isLowerHex s = true) :
    isValidLowerHex n s = true := by
  have hne : s.isEmpty = false := by
    cases s with
    | nil => exact absurd hlen.symm hpos
    | cons c s => rfl
  rw [isValidLowerHex, matchesAll, hlen, hne, show s.all isLowerHexDigit = true from hhex]
  simp

theorem isEndpointSafe_eq (hne : s ≠ []) (hlen : s.length ≤ 64)
    (hsafe : Auth.isEndpointSafe s = true) : isEndpointSafe s = true := by
  have hpos := List.length_pos_iff.2 hne
  have hall : s.all isWordChar = true :=
    List.all_eq_true.2 fun c hc => (isWordChar_eq c).trans (List.all_eq_true.1 hsafe c hc)
  have hempty : s.isEmpty = false := List.isEmpty_eq_false_iff.2 hne
  simp only [isEndpointSafe, matchesAll, hall, hempty, Bool.and_true, Bool.not_false,
    Bool.and_eq_true, decide_eq_true_eq]
  exact ⟨hpos, hlen⟩

/-- The fields of a token, with what is read for its expiry. -/
def fieldsOf (st : Auth.SignedToken (List Char)) (ts : Int) : Fields where
  blockHash := st.claims.blockHash
  tenant := st.claims.tenantId.text
  ts := ts
  kv := st.claims.keyVersion
  ep := st.claims.endpointId
  nonce := st.claims.nonceHex
  sig := st.signatureHex

theorem safe_of_valid (h : st.WellFormed) : Number.Safe st.claims.keyVersion ∧
    Number.Safe (st.claims.keyVersion - 1) ∧ Number.Safe (st.claims.keyVersion + 1) := by
  obtain ⟨-, -, -, -, -, hlo, hhi, -⟩ := Auth.Claims.valid_iff.1 h.claims
  simp only [Number.safe_iff]
  omega

/-- **The worker reads the fields of the token**, and the double nearest to its expiry. -/
theorem readFields_url (h : st.WellFormed) :
    readFields ⟨Auth.chunksPath ++ st.claims.blockHash, Url.encode st.query⟩ =
      (Number.ofInt st.claims.expiryUnix.toInt).integer?.map (fieldsOf st) := by
  obtain ⟨hlen, hhash, hep, hep', hsafe, hlo, hhi, hnlen, hnonce⟩ :=
    Auth.Claims.valid_iff.1 h.claims
  have hlookup : ∀ p : Auth.Param, (Url.formParse (Url.encode st.query)).lookup p.text =
      some (st.param p) := by
    intro p
    rw [Url.formParse_encode st.query_ne_nil h.ascii, Auth.lookup_sorted_query]
  have hkv : (Number.ofInt st.claims.keyVersion).integer? = some st.claims.keyVersion :=
    Number.integer?_eq_some.2 (Number.ofInt_of_safe (safe_of_valid h).1)
  unfold readFields
  simp only [hlookup, Auth.SignedToken.param, toNumber, stringToNumber_formatInt, hkv,
    List.drop_left, Option.filter_some, Option.bind_eq_bind, Option.bind_some, isUUID_text,
    isValidLowerHex_eq hlen (by decide) hhash, isValidLowerHex_eq hnlen (by decide) hnonce,
    isValidLowerHex_eq h.length (by decide) h.lowerHex, isEndpointSafe_eq hep hep' hsafe, if_true,
    decide_eq_true hlo]
  cases (Number.ofInt st.claims.expiryUnix.toInt).integer? <;> rfl

/-- The message of the fields is the message of the claims. -/
theorem message_fieldsOf (h : st.WellFormed) (hts : Number.Safe ts)
    (heq : st.claims.expiryUnix.toInt = ts) : (fieldsOf st ts).message = st.claims.message := by
  unfold Fields.message Auth.Claims.message
  rw [heq]
  dsimp only [fieldsOf]
  rw [integerText_of_safe hts, integerText_of_safe (safe_of_valid h).1]
  rfl

/-! ## Freshness -/

/-- The times of a `Date`, in milliseconds. -/
def IsDate (ms : Int) : Prop := -8640000000000000 ≤ ms ∧ ms ≤ 8640000000000000

variable {n : Int}

/-- **Which expiries are fresh at the edge.** -/
theorem checkFreshness_eq_none (hnow : IsDate now) (hn : now / 1000 = n) :
    checkFreshness now ts = none ↔ n ≤ ts + 60 ∧ ts ≤ n + 960 := by
  obtain ⟨hlo, hhi⟩ := hnow
  have hsec : ((Number.ofInt now).div 1000).floor = .finite n := by
    have := Number.floor_div (m := now) (d := 1000) (k := 10) (by decide) (by decide) (by decide)
    rw [hn] at this
    refine this ?_ ?_ ?_ <;> rw [Number.safe_iff] <;> omega
  have hexpired := Number.ofInt_lt (e := ts + skewSeconds) (n := n)
    (by rw [Number.safe_iff]; omega) (by rw [Number.safe_iff]; omega)
  have hsum : ((Number.finite n).add (.finite ttlSeconds)).add (.finite skewSeconds) =
      .finite ((n + 960 : Int) : ℚ) := by
    rw [Number.add_intCast, Number.ofInt_of_safe (by rw [Number.safe_iff, ttlSeconds]; omega),
      Number.add_intCast, Number.ofInt_of_safe
        (by rw [Number.safe_iff, ttlSeconds, skewSeconds]; omega)]
    rw [add_assoc]
    rfl
  have hfuture : Number.lt (.finite ((n + 960 : Int) : ℚ)) (.finite ts) = true ↔ n + 960 < ts := by
    rw [Number.lt, decide_eq_true_eq]
    exact Int.cast_lt
  unfold checkFreshness
  dsimp only
  rw [hsec, Number.add_intCast, hsum]
  unfold skewSeconds at hexpired ⊢
  split_ifs with h₁ h₂
  · rw [hexpired] at h₁
    simp only [false_iff]
    omega
  · rw [hfuture] at h₂
    simp only [false_iff]
    omega
  · rw [hexpired] at h₁
    rw [hfuture] at h₂
    simp only [true_iff]
    omega

/-- **What is fresh at the edge is exact.** -/
theorem fresh_iff (hnow : IsDate now) (hn : now / 1000 = n) :
    (Number.ofInt e).integer? = some t ∧ checkFreshness now t = none ↔
      t = e ∧ n ≤ e + 60 ∧ e ≤ n + 960 := by
  rw [checkFreshness_eq_none hnow hn, Number.integer?_eq_some]
  obtain ⟨hlo, hhi⟩ := hnow
  constructor
  · rintro ⟨hts, hfresh⟩
    have heq : e = t := Number.eq_of_ofInt_eq (by rw [Number.safe_iff]; omega)
      (by rw [Number.safe_iff]; omega) hts
    subst heq
    exact ⟨rfl, hfresh⟩
  · rintro ⟨rfl, hfresh⟩
    exact ⟨Number.ofInt_of_safe (by rw [Number.safe_iff]; omega), hfresh⟩

/-! ## When the worker lets a request pass -/

/-- What the worker is answered: the time, the keys and the reply of the nonce store. -/
structure Env where
  now : Int
  keys : List Char → Except String Value
  reply : Reply

/-- A request that meets these answers. -/
def Env.exchange (e : Env) (request : Request) : Exchange :=
  ⟨request, e.now, e.now, e.keys, fun _ => e.reply⟩

/-- What `fetch` returns. -/
def Env.respond (e : Env) (hmac : Auth.Hmac) (request : Request) : Option Response :=
  (e.exchange request).outcome hmac

/-- The version is the current one or within its window. -/
def KeyVersion.usable (v : KeyVersion) (current : Number) (kv now : Int) : Bool :=
  (Number.finite kv).strictEq current ||
    v.supersededAt.any fun t => (Number.ofInt now).lt (t.add (.finite overlapWindowMs))

variable {hmac : Auth.Hmac} {e : Env}

theorem overlap_value (x : Exchange) (v : KeyVersion) :
    x.overlap (some v.value) = some (v.supersededAt.any fun t =>
      (Number.ofInt x.later).lt (t.add (.finite overlapWindowMs))) := by
  unfold Exchange.overlap
  rw [supersededAt?_value]
  cases v.supersededAt with
  | none => rfl
  | some t => rfl

/-- A request is signed with a version of the record that is usable. -/
theorem genuine_iff {x : Exchange} {record : KeysRecord} (h : x.Finds f record.value) :
    x.Genuine hmac f ↔
      ∃ v, record.versions.lookup (integerText f.kv) = some v ∧
        v.usable record.current f.kv x.later = true ∧
        hmacVerify hmac v.key f.message f.sig = some true := by
  constructor
  · rintro ⟨version, ⟨record', versions, inOverlap, ⟨-, hkeys, -⟩, hversions, hversion, hoverlap,
      hactive⟩, hsig⟩
    cases h.2.1.symm.trans hkeys
    cases (versions?_value record).symm.trans hversions
    rw [version?_value] at hversion
    obtain ⟨v, hv, rfl⟩ := Option.map_eq_some_iff.1 hversion
    cases (overlap_value x v).symm.trans hoverlap
    exact ⟨v, hv, hactive, hsig⟩
  · rintro ⟨v, hv, husable, hsig⟩
    exact ⟨v.value, ⟨_, _, _, h, versions?_value record,
      by rw [version?_value, hv, Option.map_some], overlap_value x v, husable⟩, hsig⟩

/-- The URL of a token, as the worker takes it apart. -/
theorem splitWeb_url (h : st.WellFormed) (base : Url.Base) :
    Url.splitWeb (st.url base.text) =
      some ⟨Auth.chunksPath ++ st.claims.blockHash, Url.encode st.query⟩ :=
  Url.splitWeb_absolute rfl h.isPathChar h.isQueryChar

/-- The URL of a token has its structure, unless its expiry is no integer as a double. -/
theorem reads_url (h : st.WellFormed) (base : Url.Base) :
    Request.Reads ⟨"PUT", st.url base.text⟩ f ↔
      ∃ ts, (Number.ofInt st.claims.expiryUnix.toInt).integer? = some ts ∧ fieldsOf st ts = f := by
  constructor
  · rintro ⟨url, hurl, -, hread⟩
    cases (splitWeb_url h base).symm.trans hurl
    rw [readFields_url h] at hread
    exact Option.map_eq_some_iff.1 hread
  · intro hread
    refine ⟨_, splitWeb_url h base, ?_, (readFields_url h).trans (Option.map_eq_some_iff.2 hread)⟩
    rw [routed, List.isPrefixOf_iff_prefix.2 (List.prefix_append _ _)]
    rfl

/-! ## The keys at the edge -/

/-- A key record as it is mirrored: the key in hexadecimal, the time in milliseconds. -/
def mirrorRecord (r : Auth.KeyRecord (List UInt8)) : KeyVersion :=
  ⟨encodeToString r.key, r.supersededAt.map fun t => Number.ofInt (t / 10 ^ 6)⟩

/-- The keys of a tenant as they are mirrored. -/
def mirror (tk : Auth.TenantKeys (List UInt8)) : KeysRecord where
  current := Number.ofInt tk.current
  versions := tk.versions.entries.map fun e => (formatInt e.1, mirrorRecord e.2)

/-- `TENANT_KEYS` has the keys of every tenant. -/
def Mirrors (keys : List Char → Except String Value) (kms : Auth.StaticKMS (List UInt8)) : Prop :=
  ∀ u : Uuid, keys (keysName u.text) = .ok (recordValue ((kms.tenants.lookup u).map mirror))

/-- A record that is there is that of a tenant. -/
theorem recordValue_truthy (h : (recordValue record).truthy = true) :
    ∃ r, record = some r ∧ recordValue record = r.value := by
  cases record with
  | none => cases h
  | some r => exact ⟨r, rfl, rfl⟩

/-- The versions are found by their decimal text. -/
theorem lookup_mirror (tk : Auth.TenantKeys (List UInt8)) (v : Int) :
    (mirror tk).versions.lookup (formatInt v) = (tk.versions.lookup v).map mirrorRecord := by
  unfold mirror AList.lookup
  dsimp only
  generalize tk.versions.entries = l
  induction l with
  | nil => rfl
  | cons e l ih =>
    obtain ⟨v', r⟩ := e
    by_cases hv : v' = v
    · subst hv
      rw [List.map_cons, List.lookup_cons_self, List.dlookup_cons_eq]
      rfl
    · have hne : (formatInt v == formatInt v') = false :=
        beq_false_of_ne fun h => hv (formatInt_inj h).symm
      rw [List.map_cons, List.lookup_cons, hne, List.dlookup_cons_ne _ _ (Ne.symm hv)]
      exact ih

/-- What one `Provision` and rotations make of the records of a tenant. -/
structure Orderly (tk : Auth.TenantKeys (List UInt8)) : Prop where
  keys : ∀ v r, tk.versions.lookup v = some r → r.key ≠ []
  superseded : ∀ v r, tk.versions.lookup v = some r → (r.supersededAt = none ↔ v = tk.current)
  millis : ∀ v r t, tk.versions.lookup v = some r → r.supersededAt = some t →
    ∃ ms : Int, t = ms * 10 ^ 6

/-- A rotation at its time, with what the entropy source returns. -/
structure Rotation where
  ms : Int
  raw : Except String (List UInt8)
  tenantId : Uuid

/-- The key store after one `Provision` and the rotations. -/
def keyHistory (tenantId : Uuid) (version : Int) (key : List UInt8) (rotations : List Rotation) :
    Auth.StaticKMS (List UInt8) :=
  rotations.foldl (fun s r => (s.rotate (r.ms * 10 ^ 6) r.raw r.tenantId).2)
    ((⟨∅, false⟩ : Auth.StaticKMS (List UInt8)).provision tenantId version key)

variable {version : Int} {now : Time} {key : List UInt8}

theorem Orderly.activate (hkey : key ≠ []) : Orderly (.activate ∅ version key) := by
  have hlookup : ∀ v r, (Auth.TenantKeys.activate ∅ version key).versions.lookup v = some r →
      v = version ∧ r = ⟨key, none⟩ := by
    intro v r h
    rw [Auth.TenantKeys.lookup_activate] at h
    split at h
    · next hv =>
      cases h
      exact ⟨hv, rfl⟩
    · cases h
  constructor
  · intro v r h
    obtain ⟨-, rfl⟩ := hlookup v r h
    exact hkey
  · intro v r h
    obtain ⟨rfl, rfl⟩ := hlookup v r h
    exact iff_of_true rfl rfl
  · intro v r t h ht
    obtain ⟨-, rfl⟩ := hlookup v r h
    cases ht

theorem lookup_rotated (tk : Auth.TenantKeys (List UInt8)) (now : Time) (key : List UInt8)
    (v : Int) :
    (tk.rotated now key).versions.lookup v =
      if v = Auth.nextVersion tk.current then some ⟨key, none⟩
      else if v = tk.current then some { tk.currentRecord with supersededAt := Auth.stamp now }
      else tk.versions.lookup v := by
  rw [Auth.TenantKeys.rotated, Auth.TenantKeys.lookup_activate, Table.lookup_insert_eq]

/-- A rotation at any time but the zero time keeps the records in order. -/
theorem Orderly.rotated (h : Orderly tk) (hzero : ms * 10 ^ 6 ≠ Auth.zeroTime) (hkey : key ≠ []) :
    Orderly (tk.rotated (ms * 10 ^ 6) key) := by
  have hstamp : Auth.stamp (ms * 10 ^ 6) = some (ms * 10 ^ 6) := if_neg hzero
  have hold : tk.currentRecord.key ≠ [] := h.keys tk.current _
    (by simp [Auth.TenantKeys.currentRecord])
  have hlookup : ∀ v r, (tk.rotated (ms * 10 ^ 6) key).versions.lookup v = some r →
      (v = Auth.nextVersion tk.current ∧ r = ⟨key, none⟩) ∨
      (v ≠ Auth.nextVersion tk.current ∧ r.key = tk.currentRecord.key ∧
        r.supersededAt = some (ms * 10 ^ 6)) ∨
      (v ≠ Auth.nextVersion tk.current ∧ v ≠ tk.current ∧ tk.versions.lookup v = some r) := by
    intro v r hr
    rw [lookup_rotated] at hr
    split_ifs at hr with hnext hcur
    · cases hr
      exact .inl ⟨hnext, rfl⟩
    · cases hr
      exact .inr (.inl ⟨hnext, rfl, hstamp⟩)
    · exact .inr (.inr ⟨hnext, hcur, hr⟩)
  constructor
  · intro v r hr
    rcases hlookup v r hr with ⟨-, rfl⟩ | ⟨-, hk, -⟩ | ⟨-, -, hr⟩
    · exact hkey
    · rw [hk]
      exact hold
    · exact h.keys v r hr
  · intro v r hr
    show r.supersededAt = none ↔ v = Auth.nextVersion tk.current
    rcases hlookup v r hr with ⟨rfl, rfl⟩ | ⟨hnext, -, hat⟩ | ⟨hnext, hcur, hr⟩
    · exact iff_of_true rfl rfl
    · exact iff_of_false (by simp [hat]) hnext
    · exact iff_of_false (fun hnone => hcur ((h.superseded v r hr).1 hnone)) hnext
  · intro v r t hr ht
    rcases hlookup v r hr with ⟨-, rfl⟩ | ⟨-, -, hat⟩ | ⟨-, -, hr⟩
    · cases ht
    · exact ⟨ms, Option.some.inj (ht.symm.trans hat)⟩
    · exact h.millis v r t hr ht

/-- The key store does not make up keys, and the records of every tenant are in order. -/
structure Kept (s : Auth.StaticKMS (List UInt8)) : Prop where
  manual : s.autoProvision = false
  orderly : ∀ u tk, s.tenants.lookup u = some tk → Orderly tk

theorem kept_provision {tenantId : Uuid} (hkey : key ≠ []) :
    Kept ((⟨∅, false⟩ : Auth.StaticKMS (List UInt8)).provision tenantId version key) where
  manual := rfl
  orderly := by
    intro u tk h
    unfold Auth.StaticKMS.provision at h
    rw [Auth.lookup_put] at h
    split at h
    · cases h
      exact Orderly.activate hkey
    · cases h

theorem autoProvision_rotate (s : Auth.StaticKMS (List UInt8)) (now : Time)
    (raw : Except String (List UInt8)) (tenantId : Uuid) :
    (s.rotate now raw tenantId).2.autoProvision = s.autoProvision := by
  unfold Auth.StaticKMS.rotate
  split
  · rfl
  · cases raw <;> rfl

/-- **One rotation.** -/
theorem Kept.rotate {s : Auth.StaticKMS (List UInt8)} (h : Kept s) (r : Rotation)
    (hkey : ∀ key, r.raw = .ok key → key ≠ []) (hzero : r.ms * 10 ^ 6 ≠ Auth.zeroTime) :
    Kept (s.rotate (r.ms * 10 ^ 6) r.raw r.tenantId).2 where
  manual := (autoProvision_rotate _ _ _ _).trans h.manual
  orderly := by
    intro u tk htk
    rcases Auth.lookup_rotate s (r.ms * 10 ^ 6) r.raw u r.tenantId with
      hsame | ⟨-, tk', key, hraw, htk', hrot⟩
    · exact h.orderly u tk (hsame ▸ htk)
    · cases hrot.symm.trans htk
      exact (h.orderly u tk' htk').rotated hzero (hkey key hraw)

/-- **A history of keys.** -/
theorem kept_keyHistory (hkey : key ≠ [])
    (hkeys : ∀ r ∈ rotations, ∀ key, r.raw = .ok key → key ≠ [])
    (hzero : ∀ r ∈ rotations, r.ms * 10 ^ 6 ≠ Auth.zeroTime) :
    Kept (keyHistory tenantId version key rotations) := by
  unfold keyHistory
  have hinit : Kept ((⟨∅, false⟩ : Auth.StaticKMS (List UInt8)).provision tenantId version key) :=
    kept_provision hkey
  revert hinit
  generalize (⟨∅, false⟩ : Auth.StaticKMS (List UInt8)).provision tenantId version key = s
  intro hs
  induction rotations generalizing s with
  | nil => exact hs
  | cons r rotations ih =>
    rw [List.foldl_cons]
    exact ih (fun r' hr' => hkeys r' (List.mem_cons_of_mem _ hr'))
      (fun r' hr' => hzero r' (List.mem_cons_of_mem _ hr')) _
      (hs.rotate r (hkeys r List.mem_cons_self) (hzero r List.mem_cons_self))

/-- **A version is usable at the edge iff it is active at the origin.** -/
theorem usable_iff_active (h : Orderly tk) (hr : tk.versions.lookup v = some r)
    (hsafe : Number.Safe v ∧ Number.Safe (v - 1) ∧ Number.Safe (v + 1))
    (hnow : IsDate (now / 10 ^ 6)) :
    (mirrorRecord r).usable (mirror tk).current v (now / 10 ^ 6) = true ↔ r.active now = true := by
  have hcurrent := Number.strictEq_ofInt (e := tk.current) hsafe.2.1 hsafe.1 hsafe.2.2
  unfold KeyVersion.usable Auth.KeyRecord.active
  rw [Bool.or_eq_true]
  show (Number.finite v).strictEq (Number.ofInt tk.current) = true ∨ _ ↔ _
  rw [hcurrent]
  cases hat : r.supersededAt with
  | none => exact iff_of_true (.inl ((h.superseded v r hr).1 hat)) rfl
  | some t =>
    obtain ⟨ms, rfl⟩ := h.millis v r t hr hat
    have hne : v ≠ tk.current := fun hv => by
      rw [(h.superseded v r hr).2 hv] at hat
      cases hat
    rw [or_iff_right hne]
    show (mirrorRecord r).supersededAt.any _ = true ↔ _
    obtain ⟨n, hn⟩ : ∃ n : Int, now / 10 ^ 6 = n := ⟨_, rfl⟩
    rw [hn] at hnow ⊢
    obtain ⟨hlo, hhi⟩ := hnow
    have hdate : Number.ofInt n = .finite n :=
      Number.ofInt_of_safe (by rw [Number.safe_iff]; omega)
    have hwindow : overlapWindowMs = 604800000 := rfl
    have hscale : ∀ t : Int, t / 1000000 = n →
        (n < ms + overlapWindowMs ↔ t < ms * 1000000 + 604800000 * 1000000) := by
      intro t ht
      omega
    rw [mirrorRecord, hat, Option.map_some, Option.any_some, hdate,
      Int.mul_ediv_cancel _ (by decide), Number.lt_add_ofInt]
    · rw [decide_eq_true_eq]
      exact hscale now hn
    all_goals
      rw [Number.safe_iff]
      omega

/-! ## When the origin accepts -/

/-- `NewTokenGenerator` with a ttl of 900 s and a skew of 60 s, and without an ownership checker. -/
def originValidator (hmac : Auth.Hmac) :
    Auth.TokenGenerator (List UInt8) (List UInt8) (List Char) :=
  ⟨Auth.hexMac hmac, 900 * 10 ^ 9, 60 * 10 ^ 9, false⟩

/-- `ParsePreSignedURL` and then `Validate` return `(true, nil)`. -/
def OriginAccepts (authority : List Char → Bool) (parseUuid : List Char → Option Uuid)
    (hmac : Auth.Hmac) (e : Auth.Surroundings (List UInt8))
    (kms : Auth.StaticKMS (List UInt8)) (raw : List Char) : Prop :=
  ∃ st, Auth.parsePreSignedURL authority parseUuid raw = .ok st ∧
    (((originValidator hmac).validate st).eval e.answer kms).1 = .ok ()

/-- A key that is found for verification. -/
theorem verificationKey_eq_some {s : Auth.StaticKMS (List UInt8)} (h : s.autoProvision = false) :
    s.verificationKey now raw u v = (.ok (some key), s') ↔
      s' = s ∧ ∃ tk r, s.tenants.lookup u = some tk ∧ tk.versions.lookup v = some r ∧
        r.active now = true ∧ r.key = key := by
  unfold Auth.StaticKMS.verificationKey Auth.StaticKMS.tenantKeys
  cases htk : s.tenants.lookup u with
  | none =>
    rw [h]
    exact iff_of_false nofun nofun
  | some tk =>
    simp only [Prod.mk.injEq, Except.ok.injEq, Option.map_eq_some_iff, Option.filter_eq_some_iff,
      Option.some.injEq]
    constructor
    · rintro ⟨⟨r, ⟨hr, hactive⟩, hkey⟩, hs⟩
      exact ⟨hs.symm, tk, r, rfl, hr, hactive, hkey⟩
    · rintro ⟨hs, tk', r, rfl, hr, hactive, hkey⟩
      exact ⟨⟨r, ⟨hr, hactive⟩, hkey⟩, hs.symm⟩

theorem checkStructure_eq_none (hmac : Auth.Hmac)
    (h : st.WellFormed) : (originValidator hmac).checkStructure st = none := by
  unfold Auth.TokenGenerator.checkStructure
  rw [h.claims]
  simp [originValidator, Auth.hexMac, h.length, h.lowerHex]

/-- **When the origin accepts a token.** -/
theorem validate_iff (h : st.WellFormed) {e : Auth.Surroundings (List UInt8)}
    (hmanual : kms.autoProvision = false) (hn : e.now / 10 ^ 9 = n) (hlo : -2 ^ 62 ≤ n)
    (hhi : n < 2 ^ 62) :
    (((originValidator hmac).validate st).eval e.answer kms).1 = .ok () ↔
      (n ≤ st.claims.expiryUnix.toInt + 60 ∧ st.claims.expiryUnix.toInt ≤ n + 960) ∧
      (∃ tk r, kms.tenants.lookup st.claims.tenantId = some tk ∧
        tk.versions.lookup st.claims.keyVersion = some r ∧ r.active e.kmsNow = true ∧
        decodeString st.signatureHex = some (hmac r.key st.claims.message).toList) ∧
      e.consumed = .ok true := by
  have hfresh := (originValidator hmac).checkFreshness_eq_none
    (show (originValidator hmac).ttl = (900 : Nat) * 10 ^ 9 from rfl)
    (show (originValidator hmac).skew = (60 : Nat) * 10 ^ 9 from rfl)
      (by decide) hn hlo hhi st.claims
  rw [Auth.TokenGenerator.validate_eval, and_iff_right (checkStructure_eq_none hmac h)]
  show (originValidator hmac).checkFreshness e.now st.claims = none ∧ _ ↔ _
  rw [hfresh, Auth.TokenGenerator.authenticate_eval _ rfl]
  refine and_congr (by norm_num) ?_
  constructor
  · rintro ⟨key, s₁, s₂, hkey, hmac, hconsume⟩
    obtain ⟨-, tk, r, htk, hr, hactive, rfl⟩ := (verificationKey_eq_some hmanual).1 hkey
    exact ⟨⟨tk, r, htk, hr, hactive, hmac⟩, (Prod.mk.inj hconsume).1⟩
  · rintro ⟨⟨tk, r, htk, hr, hactive, hmac⟩, hconsume⟩
    exact ⟨r.key, kms, kms, (verificationKey_eq_some hmanual).2 ⟨rfl, tk, r, htk, hr, hactive, rfl⟩,
      hmac, Prod.ext hconsume rfl⟩

/-! ## Agreement -/

/-- **Signatures**: the edge verifies what the origin verifies. -/
theorem hmacVerify_iff (h : st.WellFormed) {key message : List Char} (hkey : hexBytes key = bytes)
    (hne : bytes ≠ []) :
    hmacVerify hmac key message st.signatureHex = some true ↔
      decodeString st.signatureHex = some (hmac bytes message).toList := by
  have hdecode := decodeString_eq_hexBytes h.lowerHex (by rw [h.length])
  rw [hmacVerify, hkey, if_neg hne, hdecode]
  simp only [Option.some.injEq, decide_eq_true_eq]
  exact eq_comm

/-- **When the edge accepts a token**, in terms of the keys of the origin. -/
theorem passes_iff (h : st.WellFormed) (base : Url.Base) (hkept : Kept kms)
    (hmirror : Mirrors e.keys kms) (hnow : e.now = now / 10 ^ 6) (hdate : IsDate (now / 10 ^ 6))
    (hn : e.now / 1000 = n) :
    Passes (e.respond hmac ⟨"PUT", st.url base.text⟩) ↔
      (n ≤ st.claims.expiryUnix.toInt + 60 ∧ st.claims.expiryUnix.toInt ≤ n + 960) ∧
      (∃ tk r, kms.tenants.lookup st.claims.tenantId = some tk ∧
        tk.versions.lookup st.claims.keyVersion = some r ∧ r.active now = true ∧
        decodeString st.signatureHex = some (hmac r.key st.claims.message).toList) ∧
      e.reply.said = some true := by
  have hfresh := fun (ts : Int) => fresh_iff (e := st.claims.expiryUnix.toInt) (t := ts)
    (hnow ▸ hdate : IsDate e.now) hn
  have hsafe := safe_of_valid h
  -- the fields that the worker reads are those of the token, and exact where they are fresh
  have hread : ∀ {f}, (e.exchange ⟨"PUT", st.url base.text⟩).Fresh f ↔
      (n ≤ st.claims.expiryUnix.toInt + 60 ∧ st.claims.expiryUnix.toInt ≤ n + 960) ∧
        fieldsOf st st.claims.expiryUnix.toInt = f := by
    intro f
    refine (and_congr_left fun _ => reads_url h base).trans ?_
    constructor
    · rintro ⟨⟨ts, hts, rfl⟩, hcheck⟩
      obtain ⟨rfl, hbounds⟩ := (hfresh ts).1 ⟨hts, hcheck⟩
      exact ⟨hbounds, rfl⟩
    · rintro ⟨hbounds, rfl⟩
      obtain ⟨hts, hcheck⟩ := (hfresh _).2 ⟨rfl, hbounds⟩
      exact ⟨⟨_, hts, rfl⟩, hcheck⟩
  have hverify : n ≤ st.claims.expiryUnix.toInt + 60 ∧ st.claims.expiryUnix.toInt ≤ n + 960 →
      ∀ r : Auth.KeyRecord (List UInt8), r.key ≠ [] →
        (hmacVerify hmac (mirrorRecord r).key (fieldsOf st st.claims.expiryUnix.toInt).message
            st.signatureHex = some true ↔
          decodeString st.signatureHex = some (hmac r.key st.claims.message).toList) := by
    intro hbounds r hr
    have hts : Number.Safe st.claims.expiryUnix.toInt := by
      have hdate' : IsDate e.now := hnow ▸ hdate
      obtain ⟨hlo, hhi⟩ := hdate'
      rw [Number.safe_iff]
      omega
    rw [message_fieldsOf h hts rfl]
    exact hmacVerify_iff h (hexBytes_encodeToString r.key) hr
  have hversion : ∀ tk, (mirror tk).versions.lookup (integerText st.claims.keyVersion) =
      (tk.versions.lookup st.claims.keyVersion).map mirrorRecord := by
    intro tk
    rw [integerText_of_safe hsafe.1, lookup_mirror]
  rw [Env.respond, Exchange.passes_iff_admits]
  constructor
  · rintro ⟨f, hgenuine, hsaid⟩
    obtain ⟨-, ⟨record, -, -, hfinds, -⟩, -⟩ := id hgenuine
    obtain ⟨hbounds, rfl⟩ := hread.1 hfinds.1
    cases (hmirror st.claims.tenantId).symm.trans hfinds.2.1
    obtain ⟨record, hrecord, hvalue⟩ := recordValue_truthy hfinds.2.2
    obtain ⟨tk, htk, rfl⟩ := Option.map_eq_some_iff.1 hrecord
    rw [hvalue] at hfinds
    obtain ⟨v, hv, husable, hmac⟩ := (genuine_iff hfinds).1 hgenuine
    obtain ⟨r, hr, rfl⟩ := Option.map_eq_some_iff.1 ((hversion tk).symm.trans hv)
    have htidy := hkept.orderly _ tk htk
    refine ⟨hbounds, ⟨tk, r, htk, hr, ?_, (hverify hbounds r (htidy.keys _ r hr)).1 hmac⟩, hsaid⟩
    exact (usable_iff_active htidy hr hsafe hdate).1 (hnow ▸ husable)
  · rintro ⟨hbounds, ⟨tk, r, htk, hr, hactive, hmac⟩, hsaid⟩
    have htidy := hkept.orderly _ tk htk
    have hkeys := hmirror st.claims.tenantId
    rw [htk, Option.map_some] at hkeys
    have hfinds : (e.exchange ⟨"PUT", st.url base.text⟩).Finds
        (fieldsOf st st.claims.expiryUnix.toInt) (mirror tk).value :=
      ⟨hread.2 ⟨hbounds, rfl⟩, hkeys, rfl⟩
    have husable := (usable_iff_active htidy hr hsafe hdate).2 hactive
    rw [← hnow] at husable
    exact ⟨_, (genuine_iff hfinds).2 ⟨mirrorRecord r,
      (hversion tk).trans (by rw [hr, Option.map_some]), husable,
      (hverify hbounds r (htidy.keys _ r hr)).2 hmac⟩, hsaid⟩

/-- **Agreement.** -/
theorem passes_iff_originAccepts (hmac : Auth.Hmac)
    (authority : List Char → Bool) (parseUuid : List Char → Option Uuid)
    (hparse : ∀ u : Uuid, parseUuid u.text = some u)
    (st : Auth.SignedToken (List Char)) (hst : st.WellFormed)
    (base : Url.Base) (hhost : authority base.host = true)
    (tenantId : Uuid) (version : Int) (key : List UInt8) (hkey : key ≠ [])
    (rotations : List Rotation) (hkeys : ∀ r ∈ rotations, ∀ key, r.raw = .ok key → key ≠ [])
    (hzero : ∀ r ∈ rotations, r.ms * 10 ^ 6 ≠ Auth.zeroTime)
    (keys : List Char → Except String Value)
    (hmirror : Mirrors keys (keyHistory tenantId version key rotations))
    (e : Auth.Surroundings (List UInt8)) (hclock : e.kmsNow = e.now)
    (hdate : IsDate (e.now / 10 ^ 6)) (reply : Reply) (hreply : reply.said = e.consumed.toOption) :
    Passes ((⟨e.now / 10 ^ 6, keys, reply⟩ : Env).respond hmac ⟨"PUT", st.url base.text⟩) ↔
      OriginAccepts authority parseUuid hmac e (keyHistory tenantId version key rotations)
        (st.url base.text) := by
  have hkept : Kept (keyHistory tenantId version key rotations) := kept_keyHistory hkey hkeys hzero
  obtain ⟨n, hn⟩ : ∃ n : Int, e.now / 10 ^ 9 = n := ⟨_, rfl⟩
  obtain ⟨ms, hms⟩ : ∃ ms : Int, e.now / 10 ^ 6 = ms := ⟨_, rfl⟩
  have hsec : ms / 1000 = n := by
    rw [← hms, ← hn, Int.ediv_ediv_of_nonneg (by decide)]
    rfl
  have hrange : -2 ^ 62 ≤ n ∧ n < 2 ^ 62 := by
    rw [hms] at hdate
    obtain ⟨hlo, hhi⟩ := hdate
    omega
  have hanswer : reply.said = some true ↔ e.consumed = .ok true := by
    rw [hreply]
    match e.consumed with
    | .error err => exact iff_of_false nofun nofun
    | .ok b => simp [Except.toOption]
  rw [passes_iff hst base hkept hmirror rfl hdate (hms ▸ hsec), OriginAccepts,
    Auth.parsePreSignedURL_url hparse hst hhost]
  simp only [Except.ok.injEq, exists_eq_left']
  rw [validate_iff hst hkept.manual hn hrange.1 hrange.2, hclock, ← hanswer]

/-! ## A namespace that mirrors a key store, and a parser of UUIDs -/

/-- `TENANT_KEYS` with the keys of a key store and nothing else. -/
def mirrorAll (kms : Auth.StaticKMS (List UInt8)) (name : List Char) : Except String Value :=
  .ok (recordValue ((kms.tenants.entries.find? fun e => keysName e.1.text = name).map
    fun e => mirror e.2))

theorem mirrors_mirrorAll (kms : Auth.StaticKMS (List UInt8)) : Mirrors (mirrorAll kms) kms := by
  intro u
  unfold mirrorAll AList.lookup
  congr 2
  generalize kms.tenants.entries = l
  induction l with
  | nil => rfl
  | cons e l ih =>
    obtain ⟨u', tk⟩ := e
    by_cases hu : u' = u
    · subst hu
      rw [List.find?_cons_of_pos (by simp), List.dlookup_cons_eq]
      rfl
    · have hname : keysName u'.text ≠ keysName u.text := fun h =>
        hu (Uuid.text_inj (List.append_cancel_left h))
      rw [List.find?_cons_of_neg (by simp [hname]), List.dlookup_cons_ne _ _ (Ne.symm hu)]
      exact ih

/-! ## A token after a rotation, and after a rotation at the zero time -/

/-- Claims under the first version, which expire at 1000 s. -/
def sampleClaims : Auth.Claims where
  tenantId := 1
  blockHash := List.replicate 64 'a'
  expiryUnix := 1000
  keyVersion := 1
  endpointId := ['p', 'o', 'p']
  nonceHex := List.replicate 32 '5'

/-- The sample claims, signed with the first key. -/
def sampleToken (hmac : Auth.Hmac) : Auth.SignedToken (List Char) :=
  ⟨sampleClaims, encodeToString (hmac [7] sampleClaims.message).toList⟩

theorem sampleToken_wellFormed (hmac : Auth.Hmac) :
    (sampleToken hmac).WellFormed where
  claims := show sampleClaims.valid = none by decide +kernel
  length := by simp [sampleToken]
  lowerHex := List.all_eq_true.2 fun _ hc => isLowerHexDigit_of_mem_encodeToString hc

def sampleBase : Url.Base := ⟨.https, ['e', 'd', 'g', 'e'], List.all_eq_true.1 (by decide)⟩

/-- The first key is provisioned for the tenant, and rotated at `ms`. -/
def sampleKeys (ms : Int) : Auth.StaticKMS (List UInt8) := keyHistory 1 1 [7] [⟨ms, .ok [8], 1⟩]

/-- At 500 s, with a nonce that was not used before. -/
def sampleSurroundings : Auth.Surroundings (List UInt8) where
  now := 500 * 10 ^ 9
  kmsNow := 500 * 10 ^ 9
  rawKey := .error "not asked for"
  rawNonce := .error "not asked for"
  consumed := .ok true
  owned := .error "not asked for"

def sampleReply : Reply := .response 200 (some (some ['O', 'K']))

/-- The first key after the rotation. -/
def sampleRecord (ms : Int) : Auth.KeyRecord (List UInt8) := ⟨[7], Auth.stamp (ms * 10 ^ 6)⟩

theorem lookup_sampleKeys (ms : Int) : ∃ tk, (sampleKeys ms).tenants.lookup 1 = some tk ∧
    tk.current = 2 ∧ tk.versions.lookup 1 = some (sampleRecord ms) :=
  ⟨_, rfl, rfl, rfl⟩

/-- The origin accepts the sample token if the first key is active. -/
theorem originAccepts_sample (hmac : Auth.Hmac) (ms : Int)
    (hactive : (sampleRecord ms).active (500 * 10 ^ 9) = true) :
    OriginAccepts (fun _ => true) Uuid.parse hmac sampleSurroundings (sampleKeys ms)
      ((sampleToken hmac).url sampleBase.text) := by
  have hst := sampleToken_wellFormed hmac
  have hmanual : (sampleKeys ms).autoProvision = false := autoProvision_rotate _ _ _ _
  have hfresh : (500 : Int) ≤ 1000 + 60 ∧ (1000 : Int) ≤ 500 + 960 := by decide
  obtain ⟨tk, htk, -, hr⟩ := lookup_sampleKeys ms
  refine ⟨_, Auth.parsePreSignedURL_url Uuid.parse_text hst rfl, ?_⟩
  exact (validate_iff hst hmanual (show sampleSurroundings.now / 10 ^ 9 = 500 by decide) (by decide)
    (by decide)).2 ⟨hfresh, ⟨tk, _, htk, hr, hactive, decodeString_encodeToString _⟩, rfl⟩

/-- A MAC that is the same for every message. -/
def constantMac (_ : List UInt8) (_ : List Char) : Vector UInt8 32 := Vector.replicate 32 0

/-- The first key was rotated at 0.005 s, and its token passes at 500 s. -/
theorem passes_iff_originAccepts_rotated :
    Passes ((⟨500000, mirrorAll (sampleKeys 5), sampleReply⟩ : Env).respond constantMac
      ⟨"PUT", (sampleToken constantMac).url sampleBase.text⟩) := by
  have hkeys : ∀ r ∈ [(⟨5, .ok [8], 1⟩ : Rotation)], ∀ key, r.raw = .ok key → key ≠ [] := by
    simp
  have hzero : ∀ r ∈ [(⟨5, .ok [8], 1⟩ : Rotation)], r.ms * 10 ^ 6 ≠ Auth.zeroTime := by
    intro r hr
    rw [List.mem_singleton.1 hr]
    decide
  have horigin := originAccepts_sample constantMac 5 (by decide +kernel)
  exact (passes_iff_originAccepts constantMac (fun _ => true) Uuid.parse Uuid.parse_text
    (sampleToken constantMac) (sampleToken_wellFormed _) sampleBase rfl 1 1 [7] (by decide) _ hkeys
    hzero (mirrorAll (sampleKeys 5)) (mirrors_mirrorAll _) sampleSurroundings rfl
    ⟨by decide +kernel, by decide +kernel⟩ sampleReply (by decide)).2 horigin

/-- The first key was rotated at the zero time. The origin takes it for the current one and accepts
its token; the edge does not, as another version is the current one. -/
theorem zeroTime_rotation_disagrees :
    (sampleToken constantMac).WellFormed ∧
    OriginAccepts (fun _ => true) Uuid.parse constantMac sampleSurroundings
      (sampleKeys (-62135596800000)) ((sampleToken constantMac).url sampleBase.text) ∧
    ¬ Passes ((⟨500000, mirrorAll (sampleKeys (-62135596800000)), sampleReply⟩ : Env).respond
      constantMac ⟨"PUT", (sampleToken constantMac).url sampleBase.text⟩) := by
  have hst := sampleToken_wellFormed constantMac
  refine ⟨hst, originAccepts_sample constantMac _ (by decide +kernel), fun hpass => ?_⟩
  obtain ⟨f, hgenuine, -⟩ := (Exchange.passes_iff_admits _ _).1 hpass
  obtain ⟨-, ⟨record, -, -, hfinds, -⟩, -⟩ := id hgenuine
  obtain ⟨ts, -, rfl⟩ := (reads_url hst sampleBase).1 hfinds.1.1
  obtain ⟨tk, htk, hcurrent, hr⟩ := lookup_sampleKeys (-62135596800000)
  have hmirror := mirrors_mirrorAll (sampleKeys (-62135596800000)) 1
  rw [htk, Option.map_some] at hmirror
  cases hmirror.symm.trans hfinds.2.1
  have hmirrored : Exchange.Finds _ _ (mirror tk).value := hfinds
  obtain ⟨v, hv, husable, -⟩ := (genuine_iff hmirrored).1 hgenuine
  have hversion := lookup_mirror tk 1
  rw [hr, Option.map_some] at hversion
  cases hversion.symm.trans hv
  have hstamp : (sampleRecord (-62135596800000)).supersededAt = none := by decide +kernel
  have hother := (Number.strictEq_ofInt (e := 2) (n := 1) (by simp [Number.safe_iff])
    (by simp [Number.safe_iff]) (by simp [Number.safe_iff])).not.2 (by decide)
  refine absurd husable ?_
  rw [KeyVersion.usable, mirrorRecord, hstamp]
  show ¬ ((Number.finite (1 : Int)).strictEq (Number.ofInt tk.current) || false) = true
  rw [hcurrent, Bool.or_false]
  exact hother

end Aegis.Edge
