import Aegis.Database.Cache

/-!
# Monotonic reads

A reader whose calls of `GetNodeMetadata` follow one another should not see a node go back to an
older version. Between the commit of a mutation and its INCR the old generation is still live, and
two processes may load before and after the commit under one key. Each returns what it has loaded,
but the entry is that of the one whose SET comes last, which need not be the newer.

What is missing is that a mutation is announced before it can be read. If, whenever a loader reads,
each commit of the tenant has had its INCR, then a call that begins later works under a generation
from all their numbers on (`Informed`), and returns at least what the first one did.
-/

namespace Aegis.Database

namespace State

variable {Payload : Type} {json : Json Payload}

/-! ## Order of versions -/

/-- A committed state with `m₂` that is not before one with `m₁`. -/
def NotOlder (s : State Payload) (t n : Uuid) (m₁ m₂ : NodeMeta) : Prop :=
  ∃ k₁ k₂, k₁ ≤ k₂ ∧ k₂ ≤ s.log.length ∧ loadMeta (s.dbAt k₁) t n = some m₁ ∧
    loadMeta (s.dbAt k₂) t n = some m₂

/-- No commit lowers the epoch of the node. -/
def EpochsRise (s : State Payload) (t n : Uuid) : Prop :=
  ∀ k k' m m', k ≤ k' → k' ≤ s.log.length → loadMeta (s.dbAt k) t n = some m →
    loadMeta (s.dbAt k') t n = some m' → m.aclEpoch ≤ m'.aclEpoch

variable {n t : Uuid} {s : State Payload}

/-- A mutation changes the nodes of its tenant only. -/
def Confined (s : State Payload) : Act → Prop
  | .commit t db => ∀ t' n, t' ≠ t → loadMeta db t' n = loadMeta (s.dbAt s.log.length) t' n
  | _ => True

/-- Every commit of the tenant has had its INCR. -/
def Announced (s : State Payload) (t : Uuid) : Prop :=
  ∀ e ∈ s.log, e.tenantId = t → e.bumped.isSome

instance (s : State Payload) (t : Uuid) : Decidable (s.Announced t) :=
  inferInstanceAs (Decidable (∀ e ∈ s.log, _))

/-- **The condition**: where a loader reads, the commits of the tenant have been announced. -/
def Orderly (s : State Payload) (a : Act) : Prop :=
  ∀ r ∈ s.reads a, s.Announced r.1

/-! ## What is known -/

/-- What a call has returned, a flight has read or Redis holds. -/
inductive Known (json : Json Payload) (s : State Payload) : Uuid → Uuid → NodeMeta → Prop
  | returned {c : Call} {m : NodeMeta} : c ∈ s.calls → c.phase = .returned (some m) →
    Known json s c.tenantId c.nodeId m
  | read {fl : Flight} {m : NodeMeta} : fl ∈ s.flights → fl.phase.result = some m →
    Known json s fl.tenantId fl.nodeId m
  | stored {t : Uuid} {g : Nat} {n : Uuid} {m : NodeMeta} :
    s.entry json (nodeKey t g n) = some m → Known json s t n m

/-- A call waits for a flight to its own node. -/
def Paired (s : State Payload) : Prop :=
  ∀ c ∈ s.calls, ∀ f, c.phase = .waiting f → ∃ fl, s.flights[f]? = some fl ∧
    fl.tenantId = c.tenantId ∧ fl.nodeId = c.nodeId

variable {a : Act} {i : Nat} {c : Call} {m : NodeMeta} {s' : State Payload}

theorem Paired.step (h : s.Paired) (hd : Does json s a s') : s'.Paired := by
  have hl := later_of_does hd
  have hkeep : ∀ c ∈ s.calls, ∀ f, c.phase = .waiting f → ∃ fl, s'.flights[f]? = some fl ∧
      fl.tenantId = c.tenantId ∧ fl.nodeId = c.nodeId := by
    intro c hc f hph
    obtain ⟨fl, hfl, ht, hn⟩ := h c hc f hph
    obtain ⟨fl', hfl', ht', -, hn'⟩ := hl.flights hfl
    exact ⟨fl', hfl', ht'.trans ht, hn'.trans hn⟩
  cases hd with
  | call p t n =>
    intro c hc f hph
    rcases List.mem_append.1 hc with hc | hc
    · exact hkeep c hc f hph
    · rw [List.mem_singleton.1 hc] at hph
      cases hph
  | move hi hm =>
    intro c hc f hph
    rcases mem_setPhase hc with hc | ⟨c₀, hc₀, rfl⟩
    · exact hkeep c hc f hph
    · cases hi.symm.trans hc₀
      cases hph
      cases hm with
      | join hg hfl hkey =>
        obtain ⟨ht, -, hn⟩ := nodeKey_inj hkey
        exact ⟨_, hfl, ht, hn⟩
  | lead hi hph₀ =>
    intro c hc f hph
    rcases mem_setPhase hc with hc | ⟨c₀, hc₀, rfl⟩
    · exact hkeep c hc f hph
    · cases hi.symm.trans hc₀
      cases hph
      exact ⟨_, List.getElem?_concat_length, rfl, rfl⟩
  | land _ _ | store _ _ _ | expire _ | commit _ | incr _ _ _ => exact hkeep

theorem Known.of_frame (h : Known json s' t n m)
    (hcalls : ∀ c ∈ s'.calls, ∀ m, c.phase = .returned (some m) → c ∈ s.calls)
    (hflights : ∀ fl ∈ s'.flights, ∀ m, fl.phase.result = some m → fl ∈ s.flights)
    (hentries : ∀ {t g n m}, s'.entry json (nodeKey t g n) = some m →
      s.entry json (nodeKey t g n) = some m) : Known json s t n m := by
  cases h with
  | returned hmem hph => exact .returned (hcalls _ hmem _ hph) hph
  | read hfl hr => exact .read (hflights _ hfl _ hr) hr
  | stored he => exact .stored (hentries he)

/-- What is known after a call has gone on. -/
theorem known_setPhase (hc : s.calls[i]? = some c) (h : Known json (s.setPhase i ph) t n m) :
    Known json s t n m ∨ ph = .returned (some m) ∧ c.tenantId = t ∧ c.nodeId = n := by
  cases h with
  | returned hmem hph =>
    rcases mem_setPhase hmem with hold | ⟨c₀, hc₀, rfl⟩
    · exact .inl (.returned hold hph)
    · cases hc.symm.trans hc₀
      exact .inr ⟨hph, rfl, rfl⟩
  | read hfl hr => exact .inl (.read hfl hr)
  | stored he => exact .inl (.stored he)

/-- What is known after a flight has gone on. -/
theorem known_setFlight (hf : s.flights[f]? = some fl) (h : Known json (s.setFlight f ph) t n m) :
    Known json s t n m ∨ ph.result = some m ∧ fl.tenantId = t ∧ fl.nodeId = n := by
  cases h with
  | returned hmem hph => exact .inl (.returned hmem hph)
  | read hmem hr =>
    rcases mem_setFlight hmem with hold | ⟨fl₀, hfl₀, rfl⟩
    · exact .inl (.read hold hr)
    · cases hf.symm.trans hfl₀
      exact .inr ⟨hr, rfl, rfl⟩
  | stored he => exact .inl (.stored he)

/-- What is known after a SET. -/
theorem known_insert (hfl : fl ∈ s.flights) (hr : fl.phase.result = some m)
    (hp : json.unmarshal p = some m)
    (h : Known json { s with redis := s.redis.insert fl.key (.payload p) } t n m') :
    Known json s t n m' := by
  cases h with
  | returned hmem hph => exact .returned hmem hph
  | read hmem hr' => exact .read hmem hr'
  | stored he =>
    rw [entry_of_insert rfl] at he
    split at he
    · next hkey =>
      obtain ⟨rfl, rfl, rfl⟩ := nodeKey_inj hkey
      cases hp.symm.trans he
      exact .read hfl hr
    · exact .stored he

/-- **What is known after an operation** was known before, or the operation has just read it. -/
theorem known_of_does (hd : Does json s a s') (hs : s.Paired) (hk : Known json s' t n m) :
    Known json s t n m ∨
      s.reads a = some (t, n) ∧ loadMeta (s.dbAt s.log.length) t n = some m := by
  cases hd with
  | call p t' n' =>
    refine .inl (hk.of_frame (fun c hmem m hph => ?_) (fun _ hfl _ _ => hfl) id)
    rcases List.mem_append.1 hmem with hold | hnew
    · exact hold
    · rw [List.mem_singleton.1 hnew] at hph
      cases hph
  | move hc hm =>
    rcases known_setPhase hc hk with hold | ⟨rfl, rfl, rfl⟩
    · exact .inl hold
    · cases hm with
      | hit _ he => exact .inl (.stored he)
      | load hr hm => exact .inr ⟨hr, hm⟩
      | receive hwait hfl hr =>
        -- the flight is one to the node of the call
        obtain ⟨fl', hfl', ht, hn⟩ := hs _ (List.mem_of_getElem? hc) _ hwait
        cases hfl.symm.trans hfl'
        rw [← ht, ← hn]
        exact .inl (.read (List.mem_of_getElem? hfl) hr)
  | lead hc _ =>
    rcases known_setPhase (s := s.addFlight _) hc hk with hold | ⟨hph, -⟩
    · refine .inl (hold.of_frame (fun _ hmem _ _ => hmem) (fun fl hmem m hr => ?_) id)
      rcases List.mem_append.1 hmem with hold | hnew
      · exact hold
      · rw [List.mem_singleton.1 hnew] at hr
        cases hr
    · cases hph
  | land hf hl =>
    rcases known_setFlight hf hk with hold | ⟨hr, rfl, rfl⟩
    · exact .inl hold
    · rcases hl _ hr with hold | hread
      · exact .inl (.read (List.mem_of_getElem? hf) hold)
      · exact .inr hread
  | @store f fl m₀ p hf hr hp =>
    have hmem := List.mem_of_getElem? hf
    rcases known_setFlight (s := { s with redis := s.redis.insert fl.key (.payload p) }) hf hk with
      hold | ⟨hr', rfl, rfl⟩
    · exact .inl (known_insert hmem hr hp hold)
    · cases hr'
      exact .inl (.read hmem hr)
  | expire _ =>
    exact .inl (hk.of_frame (fun _ hmem _ _ => hmem) (fun _ hfl _ _ => hfl) entry_of_erase)
  | commit _ => exact .inl (hk.of_frame (fun _ hmem _ _ => hmem) (fun _ hfl _ _ => hfl) id)
  | incr _ _ _ =>
    refine .inl (hk.of_frame (fun _ hmem _ _ => hmem) (fun _ hfl _ _ => hfl) fun hm => ?_)
    rwa [entry_of_insert rfl, if_neg (nodeKey_ne_generationKey _ _ _ _)] at hm

/-! ## How the log grows -/

/-- A later state, whose log begins with commits of the same tenants and whose calls stay what they
are for. -/
structure Grows (s s' : State Payload) : Prop where
  later : Later s s'
  tenants : s.log.map Commit.tenantId <+: s'.log.map Commit.tenantId
  calls : ∀ {i : Nat} {c : Call}, s.calls[i]? = some c →
    ∃ c' : Call, s'.calls[i]? = some c' ∧ c'.tenantId = c.tenantId ∧ c'.nodeId = c.nodeId

theorem Later.trans {s'' : State Payload} (h : Later s s') (h' : Later s' s'') :
    Later s s'' where
  length := h.length.trans h'.length
  dbAt k hk := (h'.dbAt k (hk.trans h.length)).trans (h.dbAt k hk)
  gen t := (h.gen t).trans (h'.gen t)
  kept hj hv := h'.kept (h.kept hj hv) hv
  given {j e v} hj hv := by
    rcases h'.given hj hv with hold | ⟨hlt, hle⟩
    · rcases h.given hold hv with hold | ⟨hlt, hle⟩
      · exact .inl hold
      · exact .inr ⟨hlt, hle.trans (h'.gen _)⟩
    · exact .inr ⟨(h.gen _).trans_lt hlt, hle⟩
  flights hf := by
    obtain ⟨fl', hf', ht, hg, hn⟩ := h.flights hf
    obtain ⟨fl'', hf'', ht', hg', hn'⟩ := h'.flights hf'
    exact ⟨fl'', hf'', ht'.trans ht, hg'.trans hg, hn'.trans hn⟩

theorem Grows.trans {s'' : State Payload} (h : Grows s s') (h' : Grows s' s'') :
    Grows s s'' where
  later := h.later.trans h'.later
  tenants := h.tenants.trans h'.tenants
  calls hc := by
    obtain ⟨c', hc', ht, hn⟩ := h.calls hc
    obtain ⟨c'', hc'', ht', hn'⟩ := h'.calls hc'
    exact ⟨c'', hc'', ht'.trans ht, hn'.trans hn⟩

theorem Grows.refl (s : State Payload) : Grows s s where
  later := .of_frame rfl rfl (fun _ => rfl) fun h => ⟨_, h, rfl, rfl, rfl⟩
  tenants := List.prefix_rfl
  calls hc := ⟨_, hc, rfl, rfl⟩

theorem getElem?_setPhase (s : State Payload) (i : Nat) (ph : CallPhase)
    (h : s.calls[i']? = some c) :
    (s.setPhase i ph).calls[i']? = some { c with phase := if i = i' then ph else c.phase } := by
  simp only [setPhase, List.getElem?_modify, h]
  split <;> rfl

theorem grows_of_does (h : Does json s a s') : Grows s s' := by
  refine ⟨later_of_does h, ?_, fun {i c} hc => ?_⟩
  · cases h with
    | commit _ =>
      rw [List.map_append]
      exact List.prefix_append _ _
    | @incr j n e he hb hn =>
      obtain ⟨hlt, rfl⟩ := List.getElem?_eq_some_iff.1 he
      have hsame : (s.log.set j { s.log[j] with bumped := some (n + 1) }).map Commit.tenantId =
          (s.log.set j s.log[j]).map Commit.tenantId := by
        rw [List.map_set, List.map_set]
      rw [hsame, List.set_getElem_self]
    | call _ _ _ | move _ _ | lead _ _ | land _ _ | store _ _ _ | expire _ =>
      exact List.prefix_rfl
  · cases h with
    | call p t n =>
      exact ⟨c, (List.getElem?_append_left (List.getElem?_eq_some_iff.1 hc).1).trans hc, rfl, rfl⟩
    | move _ _ => exact ⟨_, getElem?_setPhase s _ _ hc, rfl, rfl⟩
    | lead _ _ => exact ⟨_, getElem?_setPhase (s.addFlight _) _ _ hc, rfl, rfl⟩
    | land _ _ | store _ _ _ | expire _ | commit _ | incr _ _ _ => exact ⟨c, hc, rfl, rfl⟩

/-- A commit that is there later, at a position that was there before. -/
theorem Grows.tenant (h : Grows s s') (hj : s'.log[j]? = some e') (hlt : j < s.log.length) :
    ∃ e, s.log[j]? = some e ∧ e.tenantId = e'.tenantId := by
  obtain ⟨rest, hrest⟩ := h.tenants
  refine ⟨s.log[j], List.getElem?_eq_getElem hlt, ?_⟩
  have hmap : (s'.log.map Commit.tenantId)[j]? = some e'.tenantId := by
    rw [List.getElem?_map, hj, Option.map_some]
  rw [← hrest, List.getElem?_append_left (by simpa using hlt), List.getElem?_map,
    List.getElem?_eq_getElem hlt] at hmap
  exact Option.some.inj hmap

/-- No operation but a commit makes the log longer. -/
theorem length_of_does (h : Does json s a s') :
    s'.log.length = s.log.length ∨
      ∃ t db, a = .commit t db ∧ s' = { s with log := s.log ++ [⟨t, db, none⟩] } := by
  cases h with
  | commit ha => exact .inr ⟨_, _, ha, rfl⟩
  | incr _ _ _ => exact .inl (List.length_set ..)
  | call _ _ _ | move _ _ | lead _ _ | land _ _ | store _ _ _ | expire _ => exact .inl rfl

/-! ## Settled versions -/

/-- `m` is the node's metadata in a committed state whose commits of the tenant have all been
announced. -/
def Settled (s : State Payload) (t n : Uuid) (m : NodeMeta) : Prop :=
  ∃ k ≤ s.log.length, loadMeta (s.dbAt k) t n = some m ∧
    ∀ j e, s.log[j]? = some e → e.tenantId = t → j < k → e.bumped.isSome

theorem Settled.grows (h : s.Settled t n m) (hg : Grows s s') : s'.Settled t n m := by
  obtain ⟨k, hk, hm, hall⟩ := h
  refine ⟨k, hk.trans hg.later.length, by rwa [hg.later.dbAt k hk], fun j e hj ht hjk => ?_⟩
  obtain ⟨e₀, he₀, ht₀⟩ := hg.tenant hj (hjk.trans_le hk)
  have hbumped := hall j e₀ he₀ (ht₀.trans ht) hjk
  obtain ⟨v, hv⟩ := Option.isSome_iff_exists.1 hbumped
  cases (hg.later.kept he₀ hv).symm.trans hj
  exact hbumped

/-- What is read now is settled, if the tenant's commits have been announced. -/
theorem Announced.settled (h : s.Announced t) (hm : loadMeta (s.dbAt s.log.length) t n = some m) :
    s.Settled t n m :=
  ⟨_, le_rfl, hm, fun _ e hj ht _ => h e (List.mem_of_getElem? hj) ht⟩

/-- The invariant of orderly runs. -/
structure Ordered (json : Json Payload) (s : State Payload) : Prop where
  coherent : Coherent json s
  paired : s.Paired
  settled : ∀ {t n m}, Known json s t n m → s.Settled t n m
  confined : ∀ {j e t n}, s.log[j]? = some e → t ≠ e.tenantId →
    loadMeta (s.dbAt (j + 1)) t n = loadMeta (s.dbAt j) t n

theorem ordered_init (seed : Db) : Ordered json (init seed : State Payload) where
  coherent := coherent_init seed
  paired _ hc := by simp [init] at hc
  settled h := by
    cases h with
    | returned hc _ => simp [init] at hc
    | read hfl _ => simp [init] at hfl
    | stored he => simp [init, entry] at he
  confined h := by simp [init] at h

/-- **One operation** of an orderly run. -/
theorem Ordered.step (h : Ordered json s) (hok : s.Confined a ∧ s.Orderly a)
    (hstep : s.step json a = some s') : Ordered json s' := by
  have hd := does_of_step hstep
  have hg := grows_of_does hd
  refine ⟨h.coherent.step hd, h.paired.step hd, fun hk => ?_, fun {j e t n} hj ht => ?_⟩
  · rcases known_of_does hd h.paired hk with hold | ⟨hr, hm⟩
    · exact (h.settled hold).grows hg
    · exact ((hok.2 _ hr).settled hm).grows hg
  · by_cases hlt : j < s.log.length
    · obtain ⟨e₀, he₀, ht₀⟩ := hg.tenant hj hlt
      rw [hg.later.dbAt (j + 1) hlt, hg.later.dbAt j hlt.le]
      exact h.confined he₀ (ht₀ ▸ ht)
    · -- a commit that was not there before is the one of this operation
      have hlen := (List.getElem?_eq_some_iff.1 hj).1
      rcases length_of_does hd with hsame | ⟨t', db, rfl, rfl⟩
      · omega
      · obtain rfl : j = s.log.length := by
          rw [List.length_append, List.length_singleton] at hlen
          omega
        rw [List.getElem?_concat_length] at hj
        cases hj
        rw [hg.later.dbAt _ le_rfl, ← hok.1 t n ht]
        simp only [State.dbAt, List.getElem?_concat_length, Option.map_some, Option.getD_some]

/-! ## Runs -/

/-- Along a run the log only grows, and calls keep what they ask for. -/
theorem grows_of_run (h : s.run json as = some s') : Grows s s' :=
  Run.invariant (I := Grows s) (fun hg hs => hg.trans (grows_of_does (does_of_step hs))) (.refl s) h

/-- Commits of other tenants leave the node. -/
theorem Ordered.loadMeta_eq (h : Ordered json s) (hle : k ≤ k') (hlen : k' ≤ s.log.length)
    (hother : ∀ j e, s.log[j]? = some e → e.tenantId = t → j < k' → j < k) :
    loadMeta (s.dbAt k') t n = loadMeta (s.dbAt k) t n := by
  induction k', hle using Nat.le_induction with
  | base => rfl
  | succ k' hle ih =>
    have hj : s.log[k']? = some s.log[k'] := List.getElem?_eq_getElem hlen
    have hne : t ≠ s.log[k'].tenantId := by
      intro ht
      have := hother k' _ hj ht.symm k'.lt_succ_self
      omega
    rw [h.confined hj hne]
    exact ih (by omega) fun j e hj ht hjk => hother j e hj ht (by omega)

/-- A version with the tenant's commits of an earlier one is not older. -/
theorem Ordered.notOlder (h : Ordered json s) (h₁ : k₁ ≤ s.log.length)
    (hm₁ : loadMeta (s.dbAt k₁) t n = some m₁) (h₂ : k₂ ≤ s.log.length)
    (hm₂ : loadMeta (s.dbAt k₂) t n = some m₂)
    (hall : ∀ j e, s.log[j]? = some e → e.tenantId = t → j < k₁ → j < k₂) :
    s.NotOlder t n m₁ m₂ := by
  rcases Nat.le_total k₁ k₂ with hle | hle
  · exact ⟨k₁, k₂, hle, h₂, hm₁, hm₂⟩
  · refine ⟨k₁, k₁, le_rfl, h₁, hm₁, ?_⟩
    rw [h.loadMeta_eq hle h₁ hall]
    exact hm₂

/-- The tenant has no commit among the first `k`, or has a last one. -/
theorem last_commit (log : List Commit) (t : Uuid) (k : Nat) :
    (∀ j e, log[j]? = some e → e.tenantId = t → ¬ j < k) ∨
      ∃ j e, log[j]? = some e ∧ e.tenantId = t ∧ j < k ∧
        ∀ j' e', log[j']? = some e' → e'.tenantId = t → j' < k → j' ≤ j := by
  induction k with
  | zero => exact .inl fun j _ _ _ => Nat.not_lt_zero j
  | succ k ih =>
    by_cases hk : ∃ e, log[k]? = some e ∧ e.tenantId = t
    · obtain ⟨e, he, ht⟩ := hk
      exact .inr ⟨k, e, he, ht, k.lt_succ_self, fun j' _ _ _ hlt => Nat.le_of_lt_succ hlt⟩
    · have hbelow : ∀ j e, log[j]? = some e → e.tenantId = t → j < k + 1 → j < k := by
        intro j e hj ht hlt
        refine lt_of_le_of_ne (Nat.le_of_lt_succ hlt) ?_
        rintro rfl
        exact hk ⟨e, hj, ht⟩
      rcases ih with hnone | ⟨j, e, hj, ht, hlt, hlast⟩
      · exact .inl fun j e hj ht hlt => hnone j e hj ht (hbelow j e hj ht hlt)
      · exact .inr ⟨j, e, hj, ht, hlt.trans k.lt_succ_self,
          fun j' e' hj' ht' hlt' => hlast j' e' hj' ht' (hbelow j' e' hj' ht' hlt')⟩

/-- **Reads are monotonic in orderly runs.** A call that begins after another one for the same node
has returned does not return an older version. -/
theorem getNodeMetadata_monotonic {seed : Db} {as bs : List Act} {s₁ s₂ : State Payload}
    {i p : Nat} {c₁ c₂ : Call} {m₁ m₂ : NodeMeta}
    (h₁ : Run.Reaches (State.step json) (fun s a => s.Confined a ∧ s.Orderly a) (init seed) as s₁)
    (hc₁ : s₁.calls[i]? = some c₁) (hm₁ : c₁.phase = .returned (some m₁))
    (h₂ : Run.Reaches (State.step json) (fun s a => s.Confined a ∧ s.Orderly a) s₁
      (.call p c₁.tenantId c₁.nodeId :: bs) s₂)
    (hc₂ : s₂.calls[s₁.calls.length]? = some c₂) (hm₂ : c₂.phase = .returned (some m₂)) :
    s₂.NotOlder c₁.tenantId c₁.nodeId m₁ m₂ ∧
      (s₂.EpochsRise c₁.tenantId c₁.nodeId → m₁.aclEpoch ≤ m₂.aclEpoch) := by
  have ho₁ : Ordered json s₁ :=
    h₁.throughout.run_induction (I := Ordered json) .step (ordered_init seed) h₁.run
  have ho₂ : Ordered json s₂ := h₂.throughout.run_induction (I := Ordered json) .step ho₁ h₂.run
  have hrun := h₂.run
  have hg := grows_of_run hrun
  suffices hold : s₂.NotOlder c₁.tenantId c₁.nodeId m₁ m₂ by
    refine ⟨hold, fun hrise => ?_⟩
    obtain ⟨k₁, k₂, hle, hlen, h₁, h₂⟩ := hold
    exact hrise k₁ k₂ m₁ m₂ hle hlen h₁ h₂
  -- the first version, and what has been announced of it
  obtain ⟨k₁, hk₁, hload₁, hall⟩ := ho₁.settled (.returned (List.mem_of_getElem? hc₁) hm₁)
  have hload₁' : loadMeta (s₂.dbAt k₁) c₁.tenantId c₁.nodeId = some m₁ := by
    rwa [hg.later.dbAt k₁ hk₁]
  have hk₁' := hk₁.trans hg.later.length
  -- the second call is one for the same node
  obtain ⟨s, hs, hrest⟩ := Option.bind_eq_some_iff.1 hrun
  have hd := does_of_step hs
  cases hs
  obtain ⟨c', hc', ht, hn⟩ := (grows_of_run hrest).calls List.getElem?_concat_length
  cases hc₂.symm.trans hc'
  rcases last_commit s₁.log c₁.tenantId k₁ with hnone | ⟨j, e, hj, hje, hjk, hlast⟩
  · obtain ⟨k₂, hk₂, hload₂, -⟩ := ho₂.settled (.returned (List.mem_of_getElem? hc₂) hm₂)
    rw [ht, hn] at hload₂
    refine ho₂.notOlder hk₁' hload₁' hk₂ hload₂ fun j e hj hje hjk => ?_
    obtain ⟨e₀, he₀, ht₀⟩ := hg.tenant hj (hjk.trans_le hk₁)
    exact (hnone j e₀ he₀ (ht₀.trans hje) hjk).elim
  · -- it works under a generation from the number of the last commit on
    obtain ⟨v, hv⟩ := Option.isSome_iff_exists.1 (hall j e hj hje hjk)
    obtain ⟨c', hc', -, -, hinf⟩ := Informed.run (c := ⟨p, c₁.tenantId, c₁.nodeId, .called⟩) trivial
      (ho₁.coherent.step hd) hj hv hje.symm List.getElem?_concat_length hrest
    cases hc₂.symm.trans hc'
    unfold Informed at hinf
    rw [hm₂] at hinf
    obtain ⟨k₂, hjk₂, hk₂, hload₂⟩ := hinf m₂ rfl
    rw [ht, hn] at hload₂
    refine ho₂.notOlder hk₁' hload₁' hk₂ hload₂ fun j' e' hj' hje' hjk' => ?_
    obtain ⟨e₀, he₀, ht₀⟩ := hg.tenant hj' (hjk'.trans_le hk₁)
    exact (hlast j' e₀ he₀ (ht₀.trans hje') hjk').trans_lt hjk₂

/-! ## A mutation seen before it is announced -/

/-- Tenant 1 has all the nodes. -/
def soleTenant (d : Db) : Bool := d.nodes.entries.all fun e => e.2.tenantId == 1

theorem loadMeta_of_soleTenant (h : soleTenant d = true) (ht : t ≠ 1) (n : Uuid) :
    loadMeta d t n = none := by
  rw [loadMeta, Option.map_eq_none_iff, Db.nodeOf, Option.filter_eq_none_iff]
  intro r hr htenant
  have hall := List.all_eq_true.1 h _ (Table.mem_entries.2 hr)
  rw [beq_iff_eq] at hall htenant
  exact ht (htenant.symm.trans hall)

/-- A mutation of tenant 1, which has all the nodes before and after it. -/
def soleMutation (s : State Payload) : Act → Bool
  | .commit t db => t == 1 && (soleTenant db && soleTenant (s.dbAt s.log.length))
  | _ => true

theorem confined_of_soleMutation (s : State Payload) (a : Act) (h : s.soleMutation a = true) :
    s.Confined a := by
  cases a with
  | commit t db =>
    simp only [soleMutation, Bool.and_eq_true, beq_iff_eq] at h
    obtain ⟨rfl, hdb, hnow⟩ := h
    intro t' n ht
    rw [loadMeta_of_soleTenant hdb ht, loadMeta_of_soleTenant hnow ht]
  | _ => trivial

-- not by trying all ids, of which there are finitely many
instance (s : State Payload) (a : Act) : Decidable (s.Orderly a) :=
  Option.decidableForallMem (s.reads a)

/-- The node of `oneNode` at an epoch. -/
def oneMeta (epoch : Int) : NodeMeta :=
  ⟨(2 : Uuid).text, (1 : Uuid).text, none, ['a'], "DIRECTORY", (2 : Uuid).nodeLabel, epoch⟩

/-- The versions of the node of `oneNode`, from the first to the last. -/
def history (s : State Payload) : List (Option NodeMeta) :=
  (List.range (s.log.length + 1)).map fun k => loadMeta (s.dbAt k) 1 2

/-- What two calls for the node return, the second of which begins after a run, and what the
database has held. Every operation passes the test. -/
def twoReads (test : State NodeMeta → Act → Bool) (as : List Act) (i : Nat) (bs : List Act) :
    Option (Option (Uuid × Uuid × CallPhase) × Option CallPhase × List (Option NodeMeta)) :=
  (Run.run (State.step plainJson) (init (oneNode 0)) as).bind fun s₁ =>
    (Run.run (State.step plainJson) s₁ (.call 0 1 2 :: bs)).bind fun s₂ =>
      if Run.throughout (State.step plainJson) test (init (oneNode 0)) as &&
          Run.throughout (State.step plainJson) test s₁ (.call 0 1 2 :: bs) then
        some (s₁.calls[i]?.map fun c => (c.tenantId, c.nodeId, c.phase),
          s₂.calls[s₁.calls.length]?.map Call.phase, s₂.history)
      else none

theorem exists_of_twoReads (himp : ∀ s a, test s a = true → ok s a)
    (h : twoReads test as i bs = some (some (1, 2, ph₁), some ph₂, hist)) :
    ∃ s₁ s₂ : State NodeMeta, ∃ c₁ c₂ : Call,
      Run.Reaches (State.step plainJson) ok (init (oneNode 0)) as s₁ ∧
      (s₁.calls[i]? = some c₁ ∧ c₁.tenantId = 1 ∧ c₁.nodeId = 2 ∧ c₁.phase = ph₁) ∧
      Run.Reaches (State.step plainJson) ok s₁ (.call 0 1 2 :: bs) s₂ ∧
      (s₂.calls[s₁.calls.length]? = some c₂ ∧ c₂.phase = ph₂) ∧ s₂.history = hist := by
  obtain ⟨s₁, h₁, h⟩ := Option.bind_eq_some_iff.1 h
  obtain ⟨s₂, h₂, h⟩ := Option.bind_eq_some_iff.1 h
  split at h
  · next htest =>
    obtain ⟨htest₁, htest₂⟩ := Bool.and_eq_true_iff.1 htest
    simp only [Option.some.injEq, Prod.mk.injEq, Option.map_eq_some_iff] at h
    obtain ⟨⟨c₁, hc₁, ht, hn, hph₁⟩, ⟨c₂, hc₂, hph₂⟩, hhist⟩ := h
    exact ⟨s₁, s₂, c₁, c₂, ⟨.of_throughout himp htest₁, h₁⟩, ⟨hc₁, ht, hn, hph₁⟩,
      ⟨.of_throughout himp htest₂, h₂⟩, ⟨hc₂, hph₂⟩, hhist⟩
  · cases h

/-- An announced commit, and a call that loads. -/
def announcedRead : List Act :=
  [.commit 1 (oneNode 1), .incr 0, .call 0 1 2, .getGeneration 0 true, .getEntry 0 true, .enter 0,
    .flightLoad 0 true, .flightSet 0 true, .flightEnd 0, .receive 0]

/-- The next call begins, a commit is announced, and the call reads it. -/
theorem getNodeMetadata_monotonic_announced :
    ∃ s₁ s₂ : State NodeMeta,
      Run.run (State.step plainJson) (init (oneNode 0)) announcedRead = some s₁ ∧
      Run.run (State.step plainJson) s₁
        (.call 0 1 2 :: .commit 1 (oneNode 2) :: .incr 1 :: readAgain) = some s₂ ∧
      s₂.NotOlder 1 2 (oneMeta 1) (oneMeta 2) := by
  have hruns : twoReads (fun s a => s.soleMutation a && decide (s.Orderly a)) announcedRead 0
      (.commit 1 (oneNode 2) :: .incr 1 :: readAgain) =
      some (some (1, 2, .returned (some (oneMeta 1))), some (.returned (some (oneMeta 2))),
        [some (oneMeta 0), some (oneMeta 1), some (oneMeta 2)]) := by
    decide +kernel
  have himp : ∀ (s : State NodeMeta) (a : Act),
      (s.soleMutation a && decide (s.Orderly a)) = true → s.Confined a ∧ s.Orderly a := by
    intro s a h
    rw [Bool.and_eq_true, decide_eq_true_eq] at h
    exact ⟨confined_of_soleMutation s a h.1, h.2⟩
  obtain ⟨s₁, s₂, c₁, c₂, h₁, ⟨hc₁, ht, hn, hm₁⟩, h₂, ⟨hc₂, hm₂⟩, -⟩ :=
    exists_of_twoReads himp hruns
  have h₂' := h₂
  rw [← ht, ← hn] at h₂'
  have hold := (getNodeMetadata_monotonic h₁ hc₁ hm₁ h₂' hc₂ hm₂).1
  rw [ht, hn] at hold
  exact ⟨s₁, s₂, h₁.run, h₂.run, hold⟩

/-- Process 1 has loaded before a commit. Process 0 loads after it, under the same generation, and
returns; then process 1 stores. -/
def overtaken : List Act :=
  [.call 1 1 2, .getGeneration 0 true, .getEntry 0 true, .enter 0, .flightLoad 0 true,
    .commit 1 (oneNode 1),
    .call 0 1 2, .getGeneration 1 true, .getEntry 1 true, .enter 1, .flightLoad 1 true,
    .flightSet 1 true, .flightEnd 1, .receive 1,
    .flightSet 0 true]

/-- **Reads are not monotonic**: the reader of process 0 gets the committed epoch, and then the one
before it, which process 1 has stored. -/
theorem epoch_goes_back :
    ∃ s₁ s₂ : State NodeMeta, ∃ c₁ c₂ : Call,
      Run.Reaches (State.step plainJson) Confined (init (oneNode 0)) overtaken s₁ ∧
      (s₁.calls[1]? = some c₁ ∧ c₁.tenantId = 1 ∧ c₁.nodeId = 2 ∧
        c₁.phase = .returned (some (oneMeta 1))) ∧
      Run.Reaches (State.step plainJson) Confined s₁
        [.call 0 1 2, .getGeneration 2 true, .getEntry 2 true] s₂ ∧
      (s₂.calls[s₁.calls.length]? = some c₂ ∧ c₂.phase = .returned (some (oneMeta 0))) ∧
      ¬ s₂.NotOlder 1 2 (oneMeta 1) (oneMeta 0) := by
  have hruns : twoReads soleMutation overtaken 1 [.getGeneration 2 true, .getEntry 2 true] =
      some (some (1, 2, .returned (some (oneMeta 1))), some (.returned (some (oneMeta 0))),
        [some (oneMeta 0), some (oneMeta 1)]) := by
    decide +kernel
  obtain ⟨s₁, s₂, c₁, c₂, h₁, hc₁, h₂, hc₂, hhist⟩ :=
    exists_of_twoReads confined_of_soleMutation hruns
  refine ⟨s₁, s₂, c₁, c₂, h₁, hc₁, h₂, hc₂, ?_⟩
  rintro ⟨k₁, k₂, hle, hlen, hm₁, hm₂⟩
  have hlength := congrArg List.length hhist
  have hat : ∀ k ≤ s₂.log.length, s₂.history[k]? = some (loadMeta (s₂.dbAt k) 1 2) := by
    intro k hk
    rw [history, List.getElem?_map, List.getElem?_range (by omega), Option.map_some]
  have h₁' := hat k₁ (hle.trans hlen)
  have h₂' := hat k₂ hlen
  rw [hhist, hm₁] at h₁'
  rw [hhist, hm₂] at h₂'
  simp only [history, List.length_map, List.length_range, List.length_cons,
    List.length_nil] at hlength
  obtain rfl | rfl : k₁ = 0 ∨ k₁ = 1 := by omega
  · exact absurd h₁' (by decide)
  · obtain rfl : k₂ = 1 := by omega
    exact absurd h₂' (by decide)

end State

end Aegis.Database
