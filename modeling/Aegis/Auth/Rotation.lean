import Aegis.Auth.Keys
import Aegis.Lib.Run

/-!
# The law of key versions

The package comment of `internal/auth/keys.go` says which versions verify: the current one always,
and an older one until seven days after it was superseded, where versions only ever increase. The
calls of `StaticKMS` are put in time here, with the key stores of the past, so that the instant at
which a version stopped being current is a matter of the history and not of what the records say.

`Rotate` keeps the law. `Provision` does not: it makes any version the current one and leaves the
record of the version it replaces as it is, without the time at which that version was superseded.
The law holds where `Provision` is called for tenants without keys, or for the version that is
current already.
-/

namespace Aegis.Auth

variable {Key : Type}

/-! ## Calls in time -/

/-- The current version of a tenant. -/
def StaticKMS.current? (s : StaticKMS Key) (tenantId : Uuid) : Option Int :=
  (s.tenants.lookup tenantId).map TenantKeys.current

/-- The calls, with what the entropy source returns. -/
inductive KmsCall (Key : Type)
  | provision (tenantId : Uuid) (version : Int) (key : Key)
  | rotate (raw : Except String Key) (tenantId : Uuid)
  | signingKey (raw : Except String Key) (tenantId : Uuid)
  | verificationKey (raw : Except String Key) (tenantId : Uuid) (version : Int)

/-- The store after a call. -/
def KmsCall.apply (now : Time) (s : StaticKMS Key) : KmsCall Key → StaticKMS Key
  | provision tenantId version key => s.provision tenantId version key
  | rotate raw tenantId => (s.rotate now raw tenantId).2
  | signingKey raw tenantId => (s.signingKey raw tenantId).2
  | verificationKey raw tenantId version => (s.verificationKey now raw tenantId version).2

/-- A key store with the time of the last call and the stores of the past, each with the instant
until which it was in force, the latest first. -/
structure KeyLog (Key : Type) where
  kms : StaticKMS Key
  clock : Time
  past : List (Time × StaticKMS Key)

/-- `NewStaticKMS`, with auto-provisioning or without. -/
def KeyLog.init (autoProvision : Bool) (t : Time) : KeyLog Key := ⟨⟨∅, autoProvision⟩, t, []⟩

/-- A call at its instant; time does not run backwards. -/
def KeyLog.step (x : KeyLog Key) : Time × KmsCall Key → Option (KeyLog Key)
  | (t, c) => if t < x.clock then none else some ⟨c.apply t x.kms, t, (t, x.kms) :: x.past⟩

/-- The last instant at which the version stopped being current, in the history that ends with the
store `s`. -/
def stoppedAt (tenantId : Uuid) (v : Int) :
    StaticKMS Key → List (Time × StaticKMS Key) → Option Time
  | _, [] => none
  | s, (t, s') :: past =>
    if s'.current? tenantId = some v ∧ s.current? tenantId ≠ some v then some t
    else stoppedAt tenantId v s' past

/-- `VerificationKey` returns a key that is active. -/
def StaticKMS.Verifies (s : StaticKMS Key) (now : Time) (tenantId : Uuid) (v : Int) : Prop :=
  ∀ raw, ∃ key, (s.verificationKey now raw tenantId v).1 = .ok (some key)

/-- The law for one tenant: its current version verifies, and an earlier one that was current
verifies for seven days from the instant at which it stopped; and no version of the past was
greater. -/
structure KeyLaw (x : KeyLog Key) (tenantId : Uuid) (c : Int) : Prop where
  verifies : ∀ v now, x.kms.Verifies now tenantId v ↔ v = c ∨
    v < c ∧ ∃ t, stoppedAt tenantId v x.kms x.past = some t ∧ now < t + overlapWindow
  monotone : ∀ e ∈ x.past, ∀ c', e.2.current? tenantId = some c' → c' ≤ c

/-- `Provision` is for a tenant without keys or for its current version; a rotation does not
overflow the version, and is not at the zero time, which a record cannot tell from no time. -/
def Orderly (x : KeyLog Key) : Time × KmsCall Key → Prop
  | (_, .provision tenantId version _) =>
    x.kms.current? tenantId = none ∨ x.kms.current? tenantId = some version
  | (t, .rotate (.ok _) tenantId) => ∀ c ∈ x.kms.current? tenantId, c ≠ maxInt ∧ t ≠ zeroTime
  | _ => True

instance (x : KeyLog Key) : ∀ e, Decidable (Orderly x e)
  | (_, .provision _ _ _) => inferInstanceAs (Decidable (_ ∨ _))
  | (_, .rotate (.ok _) _) => inferInstanceAs (Decidable (∀ c ∈ _, _ ∧ _))
  | (_, .rotate (.error _) _) => .isTrue trivial
  | (_, .signingKey _ _) => .isTrue trivial
  | (_, .verificationKey _ _ _) => .isTrue trivial

/-! ## What calls do to a tenant -/

variable {s s' : StaticKMS Key} {tenantId tenantId' : Uuid}

theorem lookup_put (s : StaticKMS Key) (tk : TenantKeys Key) :
    (s.put tenantId' tk).tenants.lookup tenantId =
      if tenantId = tenantId' then some tk else s.tenants.lookup tenantId :=
  Table.lookup_insert_eq _ _ _ _

/-- Looking up keys leaves the keys of a tenant alone, or makes up the first ones. -/
theorem lookup_tenantKeys (s : StaticKMS Key) (entropy : String → KmsError)
    (raw : Except String Key) (tenantId tenantId' : Uuid) :
    (s.tenantKeys entropy raw tenantId').2.tenants.lookup tenantId = s.tenants.lookup tenantId ∨
      s.tenants.lookup tenantId = none ∧ ∃ key,
        (s.tenantKeys entropy raw tenantId').2.tenants.lookup tenantId =
          some (.activate ∅ 1 key) := by
  unfold StaticKMS.tenantKeys
  split
  · exact .inl rfl
  · next hnone =>
    split
    · cases raw with
      | error e => exact .inl rfl
      | ok key =>
        by_cases heq : tenantId = tenantId'
        · subst heq
          refine .inr ⟨hnone, key, ?_⟩
          rw [lookup_put, if_pos rfl]
        · refine .inl ?_
          rw [lookup_put, if_neg heq]
    · exact .inl rfl

theorem signingKey_snd (raw : Except String Key) :
    (s.signingKey raw tenantId).2 = (s.tenantKeys .signingEntropy raw tenantId).2 := by
  unfold StaticKMS.signingKey
  split
  · next h => rw [h]
  · next h => rw [h]

theorem verificationKey_snd (now : Time) (raw : Except String Key) (v : Int) :
    (s.verificationKey now raw tenantId v).2 =
      (s.tenantKeys .verificationEntropy raw tenantId).2 := by
  unfold StaticKMS.verificationKey
  split
  · next h => rw [h]
  · next h => rw [h]

/-- The keys of a tenant after a rotation. -/
def TenantKeys.rotated (tk : TenantKeys Key) (now : Time) (key : Key) : TenantKeys Key :=
  .activate (tk.versions.insert tk.current { tk.currentRecord with supersededAt := stamp now })
    (nextVersion tk.current) key

/-- A rotation supersedes the current version of its tenant, if there is entropy. -/
theorem lookup_rotate (s : StaticKMS Key) (now : Time) (raw : Except String Key)
    (tenantId tenantId' : Uuid) :
    (s.rotate now raw tenantId').2.tenants.lookup tenantId = s.tenants.lookup tenantId ∨
      tenantId' = tenantId ∧ ∃ tk key, raw = .ok key ∧ s.tenants.lookup tenantId = some tk ∧
        (s.rotate now raw tenantId').2.tenants.lookup tenantId = some (tk.rotated now key) := by
  unfold StaticKMS.rotate
  split
  · exact .inl rfl
  · next tk htk =>
    cases raw with
    | error e => exact .inl rfl
    | ok key =>
      by_cases heq : tenantId = tenantId'
      · subst heq
        refine .inr ⟨rfl, tk, key, rfl, htk, ?_⟩
        rw [lookup_put, if_pos rfl, TenantKeys.rotated]
      · refine .inl ?_
        rw [lookup_put, if_neg heq]

/-- The keys of a tenant after an orderly call: as they were, new ones with one version, the current
version with another key, or rotated. -/
inductive Changes (now : Time) (tenantId : Uuid) (s s' : StaticKMS Key) : Prop
  | same : s'.tenants.lookup tenantId = s.tenants.lookup tenantId → Changes now tenantId s s'
  | fresh (version : Int) (key : Key) : s.tenants.lookup tenantId = none →
      s'.tenants.lookup tenantId = some (.activate ∅ version key) → Changes now tenantId s s'
  | rekey (tk : TenantKeys Key) (key : Key) : s.tenants.lookup tenantId = some tk →
      s'.tenants.lookup tenantId = some (.activate tk.versions tk.current key) →
      Changes now tenantId s s'
  | rotate (tk : TenantKeys Key) (key : Key) : s.tenants.lookup tenantId = some tk →
      tk.current ≠ maxInt → now ≠ zeroTime →
      s'.tenants.lookup tenantId = some (tk.rotated now key) → Changes now tenantId s s'

theorem changes_tenantKeys (now : Time) (entropy : String → KmsError) (raw : Except String Key) :
    Changes now tenantId s (s.tenantKeys entropy raw tenantId').2 := by
  rcases lookup_tenantKeys s entropy raw tenantId tenantId' with hsame | ⟨hnone, key, hkey⟩
  · exact .same hsame
  · exact .fresh 1 key hnone hkey

variable {key : Key} {x : KeyLog Key} {tk : TenantKeys Key}

theorem changes_provision (now : Time)
    (ho : s.current? tenantId' = none ∨ s.current? tenantId' = some version) :
    Changes now tenantId s (s.provision tenantId' version key) := by
  unfold StaticKMS.provision
  by_cases heq : tenantId = tenantId'
  · subst heq
    unfold StaticKMS.current? at ho
    cases htk : s.tenants.lookup tenantId with
    | none =>
      refine .fresh version key htk ?_
      rw [lookup_put, if_pos rfl, Option.map_none, Option.getD_none]
    | some tk =>
      rw [htk] at ho
      obtain rfl : tk.current = version := by simpa using ho
      refine .rekey tk key htk ?_
      rw [lookup_put, if_pos rfl, Option.map_some, Option.getD_some]
  · refine .same ?_
    rw [lookup_put, if_neg heq]

/-- The current version of a tenant whose keys are known. -/
theorem current?_eq (h : s.tenants.lookup tenantId = some tk) :
    s.current? tenantId = some tk.current := by
  rw [StaticKMS.current?, h, Option.map_some]

theorem current?_eq_none (h : s.tenants.lookup tenantId = none) : s.current? tenantId = none := by
  rw [StaticKMS.current?, h, Option.map_none]

/-- **What an orderly call does to a tenant.** -/
theorem changes_of_step (ho : Orderly x e) (hstep : x.step e = some x') :
    x.clock ≤ e.1 ∧ x'.clock = e.1 ∧ x'.past = (e.1, x.kms) :: x.past ∧
      ∀ tenantId, Changes e.1 tenantId x.kms x'.kms := by
  obtain ⟨t, c⟩ := e
  dsimp only [KeyLog.step] at hstep
  split at hstep
  · cases hstep
  · next hlt =>
    cases hstep
    refine ⟨not_lt.1 hlt, rfl, rfl, fun tenantId => ?_⟩
    cases c with
    | provision tenantId' version key => exact changes_provision t ho
    | rotate raw tenantId' =>
      rcases lookup_rotate x.kms t raw tenantId tenantId' with
        hsame | ⟨rfl, tk, key, rfl, htk, htk'⟩
      · exact .same hsame
      · obtain ⟨hmax, hzero⟩ := ho tk.current (current?_eq htk)
        exact .rotate tk key htk hmax hzero htk'
    | signingKey raw tenantId' =>
      show Changes t tenantId x.kms (x.kms.signingKey raw tenantId').2
      rw [signingKey_snd]
      exact changes_tenantKeys t _ raw
    | verificationKey raw tenantId' v =>
      show Changes t tenantId x.kms (x.kms.verificationKey t raw tenantId' v).2
      rw [verificationKey_snd]
      exact changes_tenantKeys t _ raw

/-! ## The records and the history -/

variable {v : Int} {t : Time} {past : List (Time × StaticKMS Key)}

/-- A version that stopped was current before. -/
theorem current_of_stoppedAt (h : stoppedAt tenantId v s past = some t) :
    ∃ e ∈ past, e.2.current? tenantId = some v := by
  induction past generalizing s with
  | nil => cases h
  | cons e past ih =>
    obtain ⟨t', s'⟩ := e
    dsimp only [stoppedAt] at h
    split at h
    · next hstop => exact ⟨(t', s'), List.mem_cons_self, hstop.1⟩
    · obtain ⟨e, hmem, hcur⟩ := ih h
      exact ⟨e, List.mem_cons_of_mem _ hmem, hcur⟩

/-- A version that is not current does not stop. -/
theorem stoppedAt_cons_of_ne (htk : s.tenants.lookup tenantId = some tk) (hv : v ≠ tk.current) :
    stoppedAt tenantId v s' ((t, s) :: past) = stoppedAt tenantId v s past := by
  rw [stoppedAt, if_neg]
  rintro ⟨hcur, -⟩
  rw [current?_eq htk] at hcur
  exact hv (Option.some.inj hcur).symm

/-- What the records of a tenant say about its past: the current version is not superseded, any
other version has a record if it was current, with the instant at which it stopped, and none was
greater than the current one. -/
structure Records (tk : TenantKeys Key) (tenantId : Uuid) (s : StaticKMS Key)
    (past : List (Time × StaticKMS Key)) : Prop where
  current : (tk.versions.lookup tk.current).map KeyRecord.supersededAt = some none
  other : ∀ v, v ≠ tk.current → (tk.versions.lookup v).map KeyRecord.supersededAt =
    (stoppedAt tenantId v s past).map some
  monotone : ∀ e ∈ past, ∀ c, e.2.current? tenantId = some c → c ≤ tk.current

/-- A tenant with keys has the records of its past, one without keys never had any. -/
def Kept (x : KeyLog Key) (tenantId : Uuid) : Prop :=
  match x.kms.tenants.lookup tenantId with
  | none => ∀ e ∈ x.past, e.2.current? tenantId = none
  | some tk => Records tk tenantId x.kms x.past

theorem Kept.records (h : Kept x tenantId) (htk : x.kms.tenants.lookup tenantId = some tk) :
    Records tk tenantId x.kms x.past := by
  rw [Kept, htk] at h
  exact h

theorem kept_of_records (htk : x.kms.tenants.lookup tenantId = some tk)
    (h : Records tk tenantId x.kms x.past) : Kept x tenantId := by
  rw [Kept, htk]
  exact h

/-- The stores of the past with the one that is replaced. -/
theorem monotone_cons (htk : s.tenants.lookup tenantId = some tk) (hle : tk.current ≤ c)
    (h : ∀ e ∈ past, ∀ c', e.2.current? tenantId = some c' → c' ≤ tk.current) :
    ∀ e ∈ (t, s) :: past, ∀ c', e.2.current? tenantId = some c' → c' ≤ c := by
  intro e he c' hc'
  rcases List.mem_cons.1 he with rfl | he
  · rw [current?_eq htk] at hc'
    cases hc'
    exact hle
  · exact (h e he c' hc').trans hle

/-- Nothing has stopped for a tenant that never had keys. -/
theorem stoppedAt_eq_none (h : ∀ e ∈ past, e.2.current? tenantId = none) :
    stoppedAt tenantId v s past = none := by
  cases hstop : stoppedAt tenantId v s past with
  | none => rfl
  | some t =>
    obtain ⟨e, he, hcur⟩ := current_of_stoppedAt hstop
    cases (h e he).symm.trans hcur

/-- The first keys of a tenant. -/
theorem records_fresh (hnone : s.tenants.lookup tenantId = none)
    (hpast : ∀ e ∈ past, e.2.current? tenantId = none) :
    Records (.activate ∅ version key) tenantId s' ((t, s) :: past) := by
  have hpast' : ∀ e ∈ (t, s) :: past, e.2.current? tenantId = none := by
    intro e he
    rcases List.mem_cons.1 he with rfl | he
    · exact current?_eq_none hnone
    · exact hpast e he
  refine ⟨?_, fun v hv => ?_, fun e he c hc => ?_⟩
  · rw [TenantKeys.lookup_activate, if_pos (by rfl), Option.map_some]
  · rw [TenantKeys.lookup_activate, if_neg (by exact hv), stoppedAt_eq_none hpast']
    rfl
  · cases (hpast' e he).symm.trans hc

/-- Another key for the current version. -/
theorem Records.rekey (h : Records tk tenantId s past)
    (htk : s.tenants.lookup tenantId = some tk) :
    Records (.activate tk.versions tk.current key) tenantId s' ((t, s) :: past) := by
  refine ⟨?_, fun v hv => ?_, monotone_cons htk le_rfl h.monotone⟩
  · rw [TenantKeys.lookup_activate, if_pos (by rfl), Option.map_some]
  · rw [TenantKeys.lookup_activate, if_neg (by exact hv), h.other v hv, stoppedAt_cons_of_ne htk hv]

/-- The next version: the one before stops now, and all others stopped when they did. -/
theorem Records.rotate (h : Records tk tenantId s past) (htk : s.tenants.lookup tenantId = some tk)
    (hmax : tk.current ≠ maxInt) (hzero : t ≠ zeroTime)
    (htk' : s'.tenants.lookup tenantId = some (tk.rotated t key)) :
    Records (tk.rotated t key) tenantId s' ((t, s) :: past) := by
  have hnext : tk.rotated t key = .activate
      (tk.versions.insert tk.current { tk.currentRecord with supersededAt := some t })
      (tk.current + 1) key := by
    rw [TenantKeys.rotated, stamp, if_neg hzero, nextVersion, if_neg hmax]
  rw [hnext] at htk' ⊢
  refine ⟨?_, fun v hv => ?_, monotone_cons htk (Int.le_add_one le_rfl) h.monotone⟩
  · rw [TenantKeys.lookup_activate, if_pos (by rfl), Option.map_some]
  · rw [TenantKeys.lookup_activate, if_neg (by exact hv), Table.lookup_insert_eq]
    by_cases hold : v = tk.current
    · have hstop : s.current? tenantId = some v ∧ s'.current? tenantId ≠ some v := by
        rw [current?_eq htk, current?_eq htk', hold]
        exact ⟨rfl, fun h => absurd (Option.some.inj h) (Int.ne_of_gt (Int.lt_succ _))⟩
      rw [if_pos hold, stoppedAt, if_pos hstop, Option.map_some, Option.map_some]
    · rw [if_neg hold, h.other v hold, stoppedAt_cons_of_ne htk hold]

/-- A call that leaves the keys of a tenant as they are. -/
theorem Records.same (h : Records tk tenantId s past) (htk : s.tenants.lookup tenantId = some tk) :
    Records tk tenantId s' ((t, s) :: past) := by
  refine ⟨h.current, fun v hv => ?_, monotone_cons htk le_rfl h.monotone⟩
  rw [h.other v hv, stoppedAt_cons_of_ne htk hv]

/-- **An orderly call keeps the records in step with the history.** -/
theorem Kept.step (h : Kept x tenantId) (ho : Orderly x e) (hstep : x.step e = some x') :
    Kept x' tenantId := by
  obtain ⟨-, -, hpast, hchanges⟩ := changes_of_step ho hstep
  cases hchanges tenantId with
  | same hsame =>
    cases htk : x.kms.tenants.lookup tenantId with
    | none =>
      rw [Kept, hsame, htk, hpast]
      intro e' he'
      rcases List.mem_cons.1 he' with rfl | he'
      · exact current?_eq_none htk
      · rw [Kept, htk] at h
        exact h e' he'
    | some tk =>
      have htk' := hsame.trans htk
      refine kept_of_records htk' ?_
      rw [hpast]
      exact (h.records htk).same htk
  | fresh version key hnone htk' =>
    refine kept_of_records htk' ?_
    rw [hpast]
    rw [Kept, hnone] at h
    exact records_fresh hnone h
  | rekey tk key htk htk' =>
    refine kept_of_records htk' ?_
    rw [hpast]
    exact (h.records htk).rekey htk
  | rotate tk key htk hmax hzero htk' =>
    refine kept_of_records htk' ?_
    rw [hpast]
    exact (h.records htk).rotate htk hmax hzero htk'

/-! ## The law -/

/-- A version verifies if its record is active. -/
theorem verifies_iff (htk : s.tenants.lookup tenantId = some tk) :
    s.Verifies now tenantId v ↔ ∃ r, tk.versions.lookup v = some r ∧ r.active now = true := by
  have hfst : ∀ raw, (s.verificationKey now raw tenantId v).1 =
      .ok (((tk.versions.lookup v).filter fun r => r.active now).map KeyRecord.key) := by
    intro raw
    simp only [StaticKMS.verificationKey, StaticKMS.tenantKeys, htk]
  constructor
  · intro h
    obtain ⟨key, hkey⟩ := h (.error "")
    rw [hfst] at hkey
    obtain ⟨r, hr, -⟩ := Option.map_eq_some_iff.1 (Except.ok.inj hkey)
    obtain ⟨hr, hactive⟩ := Option.filter_eq_some_iff.1 hr
    exact ⟨r, hr, hactive⟩
  · rintro ⟨r, hr, hactive⟩ raw
    refine ⟨r.key, ?_⟩
    rw [hfst, hr, Option.filter_some, if_pos hactive, Option.map_some]

/-- The records give the law. -/
theorem Records.law (h : Records tk tenantId x.kms x.past)
    (htk : x.kms.tenants.lookup tenantId = some tk) : KeyLaw x tenantId tk.current := by
  refine ⟨fun v now => ?_, h.monotone⟩
  rw [verifies_iff htk]
  by_cases hv : v = tk.current
  · subst hv
    obtain ⟨r, hr, hnone⟩ := Option.map_eq_some_iff.1 h.current
    refine iff_of_true ⟨r, hr, ?_⟩ (.inl rfl)
    rw [KeyRecord.active, hnone]
  · have hother := h.other v hv
    constructor
    · rintro ⟨r, hr, hactive⟩
      rw [hr, Option.map_some] at hother
      obtain ⟨t, hstop, ht⟩ := Option.map_eq_some_iff.1 hother.symm
      obtain ⟨e, he, hcur⟩ := current_of_stoppedAt hstop
      refine .inr ⟨lt_of_le_of_ne (h.monotone e he v hcur) hv, t, hstop, ?_⟩
      rw [KeyRecord.active, ← ht] at hactive
      exact of_decide_eq_true hactive
    · rintro (hcur | ⟨-, t, hstop, hlt⟩)
      · exact absurd hcur hv
      · rw [hstop, Option.map_some] at hother
        obtain ⟨r, hr, ht⟩ := Option.map_eq_some_iff.1 hother
        refine ⟨r, hr, ?_⟩
        rw [KeyRecord.active, ht]
        exact decide_eq_true hlt

/-- **The law of key versions.** After any orderly calls, with auto-provisioning or without, a
version verifies if it is current, or if it is an earlier one that was current and stopped being so
less than seven days ago; and the current version never decreased. -/
theorem key_versions_lawful (autoProvision : Bool) (t : Time) (calls : List (Time × KmsCall Key))
    (x : KeyLog Key)
    (horderly : Run.Throughout KeyLog.step Orderly (KeyLog.init autoProvision t) calls)
    (hrun : Run.run KeyLog.step (KeyLog.init autoProvision t) calls = some x) (tenantId : Uuid)
    (c : Int) (hc : x.kms.current? tenantId = some c) : KeyLaw x tenantId c := by
  have hkept : Kept x tenantId :=
    Run.Throughout.run_induction (I := fun x => Kept x tenantId) (fun h ho hs => h.step ho hs)
      (by intro e he; cases he) horderly hrun
  obtain ⟨tk, htk, rfl⟩ := Option.map_eq_some_iff.1 hc
  exact (hkept.records htk).law htk

/-- A tenant with one rotation. -/
def rotatedOnce : List (Time × KmsCall Nat) :=
  [(0, .provision 1 1 7), (5 * 10 ^ 9, .rotate (.ok 8) 1)]

theorem key_versions_lawful_rotatedOnce :
    ∃ x, Run.run KeyLog.step (KeyLog.init false 0) rotatedOnce = some x ∧
      x.kms.current? 1 = some 2 ∧ KeyLaw x 1 2 := by
  have hrun : (Run.run KeyLog.step (KeyLog.init false 0) rotatedOnce).map
      (fun x => x.kms.current? 1) = some (some 2) := by decide +kernel
  obtain ⟨x, hx, hc⟩ := Option.map_eq_some_iff.1 hrun
  refine ⟨x, hx, hc, key_versions_lawful false 0 rotatedOnce x ?_ hx 1 2 hc⟩
  refine Run.Throughout.of_throughout (fun x e => of_decide_eq_true) ?_
  decide +kernel

/-- A tenant that is provisioned twice, with another version. -/
def provisionedTwice : List (Time × KmsCall Nat) := [(0, .provision 1 1 7), (0, .provision 1 2 8)]

/-- `Provision` replaces a version without superseding it: version 1 stopped being current at time 0
and verifies eight days later. -/
theorem replaced_version_verifies :
    ∃ x, Run.run KeyLog.step (KeyLog.init false 0) provisionedTwice = some x ∧
      x.kms.current? 1 = some 2 ∧ stoppedAt 1 1 x.kms x.past = some 0 ∧
      x.kms.Verifies (8 * 24 * 3600 * 10 ^ 9) 1 1 ∧ ¬ KeyLaw x 1 2 := by
  have hrun : (Run.run KeyLog.step (KeyLog.init false 0) provisionedTwice).map
      (fun x => (x.kms.current? 1, stoppedAt 1 1 x.kms x.past)) = some (some 2, some 0) := by
    decide +kernel
  obtain ⟨x, hx, hc, hstop⟩ := exists_of_map_eq_pair hrun
  have hverifies : x.kms.Verifies (8 * 24 * 3600 * 10 ^ 9) 1 1 := by
    cases hx
    exact fun raw => ⟨7, rfl⟩
  refine ⟨x, hx, hc, hstop, hverifies, fun hlaw => ?_⟩
  rcases (hlaw.verifies 1 _).1 hverifies with heq | ⟨-, t, ht, hlt⟩
  · exact absurd heq (by decide)
  · cases hstop.symm.trans ht
    exact absurd hlt (by decide)

end Aegis.Auth
