import Aegis.Lib.Run
import Aegis.Namespace.Procedures

/-!
# The namespace cache (`internal/database/cache.go`)

`NamespaceCache` keeps node metadata in Redis under keys that carry the tenant's generation, a
counter that every mutation increments after its transaction has committed. A call of
`GetNodeMetadata` is taken apart into the operations others can come between: GET of the
generation, GET of the entry, joining or leading a flight of its process's `singleflight.Group`,
the loader's read, SET, the end of the flight, and the receipt of its result. Flights of one process
are told apart by the text of the key alone, as `singleflight` does. Redis operations may fail, in
which case a call goes to the loader directly, and so may a loader; entries expire at any time.

What the database held is the list of its committed states (`State.dbAt`). The argument for
coherence is in the order in which things happen: a state grows in a way (`Later`) in which a
number handed out by INCR is greater than every generation read before, so what a loader read under
generation `g` contains every mutation that was ever given a number up to `g` (`State.Fresh`), no
matter when the result is stored, by whom it is shared and how late it is returned.
-/

namespace Aegis.Database

/-! ## Keys -/

/-- `generationKey`: `aegis:ns:gen:` and the tenant. -/
def generationKey (tenantId : Uuid) : List Char :=
  ['a', 'e', 'g', 'i', 's', ':', 'n', 's', ':', 'g', 'e', 'n', ':'] ++ tenantId.text

/-- `nodeKey`: `aegis:ns:`, the tenant, `:g` and the generation in decimal, `:` and the node. -/
def nodeKey (tenantId : Uuid) (generation : Nat) (nodeId : Uuid) : List Char :=
  ['a', 'e', 'g', 'i', 's', ':', 'n', 's', ':'] ++ (tenantId.text ++ ([':', 'g'] ++
    (Nat.toDigits 10 generation ++ (':' :: nodeId.text))))

variable {g : Nat} {n t : Uuid}

/-- The text of an entry's key determines the tenant, the generation and the node. -/
theorem nodeKey_inj (h : nodeKey t g n = nodeKey t' g' n') : t = t' ∧ g = g' ∧ n = n' := by
  unfold nodeKey at h
  obtain ⟨htenant, hrest⟩ := List.append_inj (List.append_cancel_left h) (by simp [Uuid.text])
  obtain ⟨hdigits, hnode⟩ := List.append_inj' (List.append_cancel_left hrest) (by simp [Uuid.text])
  have hgen : g = g' := by
    rw [← @Nat.ofDigitChars_ten_toDigits g, hdigits, Nat.ofDigitChars_ten_toDigits]
  exact ⟨Uuid.text_inj htenant, hgen, Uuid.text_inj (List.cons.inj hnode).2⟩

/-- No entry is stored under the key of a counter. -/
theorem nodeKey_ne_generationKey (t t' n : Uuid) (g : Nat) : nodeKey t g n ≠ generationKey t' := by
  intro h
  have hlen := congrArg List.length h
  simp only [nodeKey, generationKey, Uuid.text, List.length_append, List.length_cons,
    List.length_nil, Uuid.length_grouped] at hlen
  omega

example : nodeKey 1 12 2 = ("aegis:ns:00000000-0000-0000-0000-000000000001:g12:" ++
    "00000000-0000-0000-0000-000000000002").toList := by decide

/-! ## What is cached -/

/-- `NodeMeta`. -/
structure NodeMeta where
  nodeId : List Char
  tenantId : List Char
  parentId : Option (List Char)
  name : List Char
  type : String
  lineagePath : List Char
  aclEpoch : Int
  deriving DecidableEq

/-- `type::text`. -/
def typeText : NodeType → String
  | .file => "FILE"
  | .directory => "DIRECTORY"

/-- The loader of `GetNodeMetadataCached`: the node's row, if the tenant has it. -/
def loadMeta (d : Db) (tenantId nodeId : Uuid) : Option NodeMeta :=
  (d.nodeOf tenantId nodeId).map fun r =>
    { nodeId := nodeId.text
      tenantId := r.tenantId.text
      parentId := r.parentId.map Uuid.text
      name := r.name
      type := typeText r.type
      lineagePath := ['.'].intercalate r.lineagePath
      aclEpoch := r.aclEpoch }

/-- `encoding/json` on `NodeMeta`: what has been marshalled is read back. -/
structure Json (Payload : Type) where
  marshal : NodeMeta → Option Payload
  unmarshal : Payload → Option NodeMeta
  unmarshal_marshal : ∀ {m p}, marshal m = some p → unmarshal p = some m

/-- What Redis holds under a key. -/
inductive Value (Payload : Type)
  | counter (n : Nat)
  | payload (p : Payload)

/-- `json.Unmarshal` of what Redis holds; the digits of a counter are no `NodeMeta`. -/
def Value.decode {Payload : Type} (json : Json Payload) : Value Payload → Option NodeMeta
  | counter _ => none
  | payload p => json.unmarshal p

/-! ## Calls, flights and the database -/

/-- How far a call of `GetNodeMetadata` has come. `returned none` is an error. -/
inductive CallPhase
  | called
  | generation (g : Nat)
  | missed (g : Nat)
  | bypass
  | waiting (flight : Nat)
  | returned (r : Option NodeMeta)
  deriving DecidableEq

/-- A call of `GetNodeMetadata` in a process. -/
structure Call where
  process : Nat
  tenantId : Uuid
  nodeId : Uuid
  phase : CallPhase

/-- How far the function of a flight has come: it has read, it has stored what it read, and its
result is out and the key free again. -/
inductive FlightPhase
  | loading
  | loaded (m : NodeMeta)
  | stored (r : Option NodeMeta)
  | ended (r : Option NodeMeta)
  deriving DecidableEq

/-- What a flight has read. -/
def FlightPhase.result : FlightPhase → Option NodeMeta
  | loading => none
  | loaded m => some m
  | stored r => r
  | ended r => r

def FlightPhase.isEnded : FlightPhase → Bool
  | ended _ => true
  | _ => false

/-- A call `sf.Do(key, …)` that runs its function. -/
structure Flight where
  process : Nat
  tenantId : Uuid
  generation : Nat
  nodeId : Uuid
  phase : FlightPhase

/-- The key of the `singleflight.Group`. -/
def Flight.key (f : Flight) : List Char := nodeKey f.tenantId f.generation f.nodeId

/-- Two moments of one flight. -/
def Flight.SameAs (f f' : Flight) : Prop :=
  f'.tenantId = f.tenantId ∧ f'.generation = f.generation ∧ f'.nodeId = f.nodeId

/-- A committed transaction: its tenant, the database it left, and what its INCR answered. -/
structure Commit where
  tenantId : Uuid
  db : Db
  bumped : Option Nat

structure State (Payload : Type) where
  seed : Db
  log : List Commit
  redis : Table (List Char) (Value Payload)
  calls : List Call
  flights : List Flight

/-- The operations of a run. `ok` is whether Redis, or the loader, answers. -/
inductive Act
  | call (process : Nat) (tenantId nodeId : Uuid)
  | getGeneration (i : Nat) (ok : Bool)
  | getEntry (i : Nat) (ok : Bool)
  | load (i : Nat) (ok : Bool)
  | enter (i : Nat)
  | flightLoad (f : Nat) (ok : Bool)
  | flightSet (f : Nat) (ok : Bool)
  | flightEnd (f : Nat)
  | receive (i : Nat)
  | expire (key : List Char)
  | commit (tenantId : Uuid) (db : Db)
  | incr (j : Nat)

namespace State

variable {Payload : Type} (json : Json Payload)

/-- A database, an empty Redis, and no call. -/
def init (seed : Db) : State Payload := ⟨seed, [], ∅, [], []⟩

/-- The database after the first `k` commits. -/
def dbAt (s : State Payload) : Nat → Db
  | 0 => s.seed
  | k + 1 => (s.log[k]?.map Commit.db).getD s.seed

/-- `NamespaceCache.generation`: a missing counter is 0; `none` is an error. -/
def generation (s : State Payload) (tenantId : Uuid) : Option Nat :=
  match s.redis.lookup (generationKey tenantId) with
  | none => some 0
  | some (.counter n) => some n
  | some (.payload _) => none

/-- The entry under a key, if it is there and can be read. -/
def entry (s : State Payload) (key : List Char) : Option NodeMeta :=
  (s.redis.lookup key).bind (Value.decode json)

def setPhase (s : State Payload) (i : Nat) (ph : CallPhase) : State Payload :=
  { s with calls := s.calls.modify i fun c => { c with phase := ph } }

def setFlight (s : State Payload) (f : Nat) (ph : FlightPhase) : State Payload :=
  { s with flights := s.flights.modify f fun fl => { fl with phase := ph } }

def addFlight (s : State Payload) (fl : Flight) : State Payload :=
  { s with flights := s.flights ++ [fl] }

/-- The flight of a key that is under way in a process. -/
def inFlight (s : State Payload) (process : Nat) (key : List Char) : Option Nat :=
  s.flights.findIdx? fun f => f.process == process && f.key == key && !f.phase.isEnded

/-- `rdb.Set` of a marshalled entry; nothing if it cannot be marshalled. -/
def store (s : State Payload) (key : List Char) (m : NodeMeta) : State Payload :=
  match json.marshal m with
  | some p => { s with redis := s.redis.insert key (.payload p) }
  | none => s

/-- One operation. -/
def step (s : State Payload) : Act → Option (State Payload)
  | .call process tenantId nodeId =>
    some { s with calls := s.calls ++ [⟨process, tenantId, nodeId, .called⟩] }
  | .getGeneration i ok => s.calls[i]?.bind fun c =>
    match c.phase with
    | .called =>
      match ok, s.generation c.tenantId with
      | true, some g => some (s.setPhase i (.generation g))
      | _, _ => some (s.setPhase i .bypass)
    | _ => none
  | .getEntry i ok => s.calls[i]?.bind fun c =>
    match c.phase with
    | .generation g =>
      match ok, s.entry json (nodeKey c.tenantId g c.nodeId) with
      | true, some m => some (s.setPhase i (.returned (some m)))
      | true, none => some (s.setPhase i (.missed g))
      | false, _ => some (s.setPhase i .bypass)
    | _ => none
  | .load i ok => s.calls[i]?.bind fun c =>
    match c.phase with
    | .bypass =>
      let read := if ok then loadMeta (s.dbAt s.log.length) c.tenantId c.nodeId else none
      some (s.setPhase i (.returned read))
    | _ => none
  | .enter i => s.calls[i]?.bind fun c =>
    match c.phase with
    | .missed g =>
      match s.inFlight c.process (nodeKey c.tenantId g c.nodeId) with
      | some f => some (s.setPhase i (.waiting f))
      | none =>
        some ((s.addFlight ⟨c.process, c.tenantId, g, c.nodeId, .loading⟩).setPhase i
          (.waiting s.flights.length))
    | _ => none
  | .flightLoad f ok => s.flights[f]?.bind fun fl =>
    match fl.phase with
    | .loading =>
      match ok, loadMeta (s.dbAt s.log.length) fl.tenantId fl.nodeId with
      | true, some m => some (s.setFlight f (.loaded m))
      | _, _ => some (s.setFlight f (.stored none))
    | _ => none
  | .flightSet f ok => s.flights[f]?.bind fun fl =>
    match fl.phase with
    | .loaded m =>
      let s := if ok then s.store json fl.key m else s
      some (s.setFlight f (.stored (some m)))
    | _ => none
  | .flightEnd f => s.flights[f]?.bind fun fl =>
    match fl.phase with
    | .stored r => some (s.setFlight f (.ended r))
    | _ => none
  | .receive i => s.calls[i]?.bind fun c =>
    match c.phase with
    | .waiting f => s.flights[f]?.bind fun fl =>
      match fl.phase with
      | .ended r => some (s.setPhase i (.returned r))
      | _ => none
    | _ => none
  | .expire key =>
    match s.redis.lookup key with
    | some (.payload _) => some { s with redis := s.redis.erase key }
    | _ => none
  | .commit tenantId db => some { s with log := s.log ++ [⟨tenantId, db, none⟩] }
  | .incr j => s.log[j]?.bind fun e =>
    match e.bumped, s.generation e.tenantId with
    | none, some n =>
      some { s with
        redis := s.redis.insert (generationKey e.tenantId) (.counter (n + 1))
        log := s.log.set j { e with bumped := some (n + 1) } }
    | _, _ => none

/-- A run: the operations one after another. -/
abbrev run (s : State Payload) (as : List Act) : Option (State Payload) :=
  Run.run (step json) s as

/-! ## What an operation does -/

/-- The node that an operation reads with the loader. -/
def reads (s : State Payload) : Act → Option (Uuid × Uuid)
  | .load i _ => s.calls[i]?.map fun c => (c.tenantId, c.nodeId)
  | .flightLoad f _ => s.flights[f]?.map fun fl => (fl.tenantId, fl.nodeId)
  | _ => none

/-- How a call goes on by itself or with a flight that exists. -/
inductive Moves (s : State Payload) (a : Act) (c : Call) : CallPhase → Prop
  | generation {g : Nat} : s.generation c.tenantId = some g → Moves s a c (.generation g)
  | hit {g : Nat} {m : NodeMeta} : c.phase = .generation g →
    s.entry json (nodeKey c.tenantId g c.nodeId) = some m → Moves s a c (.returned (some m))
  | miss {g : Nat} : c.phase = .generation g → Moves s a c (.missed g)
  | bypass : Moves s a c .bypass
  | load {m : NodeMeta} : s.reads a = some (c.tenantId, c.nodeId) →
    loadMeta (s.dbAt s.log.length) c.tenantId c.nodeId = some m → Moves s a c (.returned (some m))
  | fail : Moves s a c (.returned none)
  | join {g f : Nat} {fl : Flight} : c.phase = .missed g → s.flights[f]? = some fl →
    fl.key = nodeKey c.tenantId g c.nodeId → Moves s a c (.waiting f)
  | receive {f : Nat} {fl : Flight} {m : NodeMeta} : c.phase = .waiting f →
    s.flights[f]? = some fl → fl.phase.result = some m → Moves s a c (.returned (some m))

/-- How a flight goes on: what it has read is what it read before, or the database now. -/
def Lands (s : State Payload) (a : Act) (fl : Flight) (ph : FlightPhase) : Prop :=
  ∀ m, ph.result = some m → fl.phase.result = some m ∨
    s.reads a = some (fl.tenantId, fl.nodeId) ∧
      loadMeta (s.dbAt s.log.length) fl.tenantId fl.nodeId = some m

/-- Everything an operation can do. -/
inductive Does (s : State Payload) (a : Act) : State Payload → Prop
  | call (p : Nat) (t n : Uuid) : Does s a { s with calls := s.calls ++ [⟨p, t, n, .called⟩] }
  | move {i : Nat} {c : Call} {ph : CallPhase} : s.calls[i]? = some c → Moves json s a c ph →
    Does s a (s.setPhase i ph)
  | lead {i g : Nat} {c : Call} : s.calls[i]? = some c → c.phase = .missed g →
    Does s a ((s.addFlight ⟨c.process, c.tenantId, g, c.nodeId, .loading⟩).setPhase i
      (.waiting s.flights.length))
  | land {f : Nat} {fl : Flight} {ph : FlightPhase} : s.flights[f]? = some fl → Lands s a fl ph →
    Does s a (s.setFlight f ph)
  | store {f : Nat} {fl : Flight} {m : NodeMeta} {p : Payload} : s.flights[f]? = some fl →
    fl.phase.result = some m → json.unmarshal p = some m →
    Does s a ({ s with redis := s.redis.insert fl.key (.payload p) }.setFlight f (.stored (some m)))
  | expire {key : List Char} {p : Payload} : s.redis.lookup key = some (.payload p) →
    Does s a { s with redis := s.redis.erase key }
  | commit {t : Uuid} {db : Db} : a = .commit t db →
    Does s a { s with log := s.log ++ [⟨t, db, none⟩] }
  | incr {j n : Nat} {e : Commit} : s.log[j]? = some e → e.bumped = none →
    s.generation e.tenantId = some n →
    Does s a { s with
      redis := s.redis.insert (generationKey e.tenantId) (.counter (n + 1))
      log := s.log.set j { e with bumped := some (n + 1) } }

variable {json} {a : Act} {fl : Flight} {key : List Char} {ph : FlightPhase} {s s' : State Payload}

theorem lands_of_result_eq (h : fl.phase.result = ph.result) : Lands s a fl ph :=
  fun _ hm => .inl (h.trans hm)

/-- A flight that was found for a key has the key. -/
theorem exists_of_inFlight (h : s.inFlight p key = some f) :
    ∃ fl, s.flights[f]? = some fl ∧ fl.key = key := by
  obtain ⟨hf, hp, -⟩ := List.findIdx?_eq_some_iff_getElem.1 h
  simp only [Bool.and_eq_true, beq_iff_eq] at hp
  exact ⟨_, List.getElem?_eq_getElem hf, hp.1.2⟩

/-- Every operation does one of the things of `Does`. -/
theorem does_of_step (h : s.step json a = some s') : Does json s a s' := by
  cases a with
  | call p t n =>
    cases h
    exact .call p t n
  | getGeneration i ok =>
    rw [step, Option.bind_eq_some_iff] at h
    obtain ⟨c, hc, h⟩ := h
    split at h
    · split at h
      · next hg =>
        cases h
        exact .move hc (.generation hg)
      · cases h
        exact .move hc .bypass
    · cases h
  | getEntry i ok =>
    rw [step, Option.bind_eq_some_iff] at h
    obtain ⟨c, hc, h⟩ := h
    split at h
    · next hph =>
      split at h
      · next hm =>
        cases h
        exact .move hc (.hit hph hm)
      · cases h
        exact .move hc (.miss hph)
      · cases h
        exact .move hc .bypass
    · cases h
  | load i ok =>
    rw [step, Option.bind_eq_some_iff] at h
    obtain ⟨c, hc, h⟩ := h
    split at h
    · cases h
      refine .move hc ?_
      cases hr : if ok then loadMeta (s.dbAt s.log.length) c.tenantId c.nodeId else none with
      | none => exact .fail
      | some m =>
        refine .load (by rw [reads, hc, Option.map_some]) ?_
        split at hr
        · exact hr
        · cases hr
    · cases h
  | enter i =>
    rw [step, Option.bind_eq_some_iff] at h
    obtain ⟨c, hc, h⟩ := h
    split at h
    · next hph =>
      split at h
      · next hf =>
        obtain ⟨fl, hfl, hkey⟩ := exists_of_inFlight hf
        cases h
        exact .move hc (.join hph hfl hkey)
      · cases h
        exact .lead hc hph
    · cases h
  | flightLoad f ok =>
    rw [step, Option.bind_eq_some_iff] at h
    obtain ⟨fl, hfl, h⟩ := h
    split at h
    · split at h
      · next hm =>
        cases h
        refine .land hfl fun m' hm' => .inr ⟨by rw [reads, hfl, Option.map_some], ?_⟩
        rw [hm, ← hm', FlightPhase.result]
      · cases h
        exact .land hfl fun _ h => by cases h
    · cases h
  | flightSet f ok =>
    rw [step, Option.bind_eq_some_iff] at h
    obtain ⟨fl, hfl, h⟩ := h
    split at h
    · next m hph =>
      have hres : fl.phase.result = some m := by rw [hph, FlightPhase.result]
      cases h
      -- the SET may fail, and so may `json.Marshal`; the flight goes on all the same
      cases ok with
      | false => exact .land hfl (lands_of_result_eq hres)
      | true =>
        simp only [if_true, State.store]
        split
        · next p hp => exact .store hfl hres (json.unmarshal_marshal hp)
        · exact .land hfl (lands_of_result_eq hres)
    · cases h
  | flightEnd f =>
    rw [step, Option.bind_eq_some_iff] at h
    obtain ⟨fl, hfl, h⟩ := h
    split at h
    · next r hph =>
      cases h
      exact .land hfl (lands_of_result_eq (by rw [hph, FlightPhase.result, FlightPhase.result]))
    · cases h
  | receive i =>
    rw [step, Option.bind_eq_some_iff] at h
    obtain ⟨c, hc, h⟩ := h
    split at h
    · next hph =>
      rw [Option.bind_eq_some_iff] at h
      obtain ⟨fl, hfl, h⟩ := h
      split at h
      · next r hend =>
        cases h
        cases r with
        | none => exact .move hc .fail
        | some m => exact .move hc (.receive hph hfl (by rw [hend, FlightPhase.result]))
      · cases h
    · cases h
  | expire key =>
    simp only [State.step] at h
    split at h
    · next hp =>
      cases h
      exact .expire hp
    · cases h
  | commit t db =>
    cases h
    exact .commit rfl
  | incr j =>
    rw [step, Option.bind_eq_some_iff] at h
    obtain ⟨e, he, h⟩ := h
    split at h
    · next hb hn =>
      cases h
      exact .incr he hb hn
    · cases h

/-! ## How a state grows -/

/-- The generation of a tenant, 0 where there is no counter. -/
def gen (s : State Payload) (t : Uuid) : Nat := (s.generation t).getD 0

/-- The later state: no commit is forgotten or changed, generations do not decrease, a number given
to a commit stays and is greater than the generation before it, and flights stay what they are
for. -/
structure Later (s s' : State Payload) : Prop where
  length : s.log.length ≤ s'.log.length
  dbAt : ∀ k ≤ s.log.length, s'.dbAt k = s.dbAt k
  gen : ∀ t, s.gen t ≤ s'.gen t
  kept : ∀ {j : Nat} {e : Commit} {v : Nat}, s.log[j]? = some e → e.bumped = some v →
    s'.log[j]? = some e
  given : ∀ {j : Nat} {e : Commit} {v : Nat}, s'.log[j]? = some e → e.bumped = some v →
    s.log[j]? = some e ∨ s.gen e.tenantId < v ∧ v ≤ s'.gen e.tenantId
  flights : ∀ {f : Nat} {fl : Flight}, s.flights[f]? = some fl →
    ∃ fl' : Flight, s'.flights[f]? = some fl' ∧ fl.SameAs fl'

/-- What changes neither the log nor a counter nor the flights there are. -/
theorem Later.of_frame (hseed : s'.seed = s.seed) (hlog : s'.log = s.log)
    (hgen : ∀ t, s'.gen t = s.gen t)
    (hflights : ∀ {f : Nat} {fl : Flight}, s.flights[f]? = some fl →
      ∃ fl' : Flight, s'.flights[f]? = some fl' ∧ fl.SameAs fl') :
    Later s s' where
  length := by rw [hlog]
  dbAt k _ := by cases k <;> simp only [State.dbAt, hseed, hlog]
  gen t := (hgen t).ge
  kept h _ := by rwa [hlog]
  given h _ := .inl (by rwa [hlog] at h)
  flights := hflights

/-- An insertion under the key of an entry leaves every counter. -/
theorem gen_insert_nodeKey (s : State Payload) (t t' n : Uuid) (g : Nat) (v : Value Payload) :
    gen { s with redis := s.redis.insert (nodeKey t g n) v } t' = s.gen t' := by
  simp only [gen, generation]
  rw [Table.lookup_insert_eq, if_neg (nodeKey_ne_generationKey t t' n g).symm]

/-- The expiry of an entry leaves every counter. -/
theorem gen_erase (h : s.redis.lookup key = some (.payload p)) (t : Uuid) :
    gen { s with redis := s.redis.erase key } t = s.gen t := by
  simp only [gen, generation]
  rw [Table.lookup_erase_eq]
  by_cases hkey : generationKey t = key
  · rw [if_pos hkey, hkey, h]
    rfl
  · rw [if_neg hkey]

/-- INCR raises the counter of its tenant by one, and no other. -/
theorem gen_incr {n : Nat} (h : s.generation t = some n) (log : List Commit) (t' : Uuid) :
    gen { s with redis := s.redis.insert (generationKey t) (.counter (n + 1)), log } t' =
      if t' = t then s.gen t' + 1 else s.gen t' := by
  by_cases ht : t' = t
  · subst ht
    rw [if_pos rfl, gen, gen, h]
    simp only [generation]
    rw [Table.lookup_insert_eq, if_pos rfl]
    rfl
  · have hkey : generationKey t' ≠ generationKey t :=
      fun h => ht (Uuid.text_inj (List.append_cancel_left h))
    rw [if_neg ht, gen, gen]
    simp only [generation]
    rw [Table.lookup_insert_eq, if_neg hkey]

theorem getElem?_setFlight (s : State Payload) (f : Nat) (ph : FlightPhase)
    (h : s.flights[f']? = some fl) :
    (s.setFlight f ph).flights[f']? =
      some { fl with phase := if f = f' then ph else fl.phase } := by
  simp only [setFlight, List.getElem?_modify, h]
  split <;> rfl

theorem gen_setFlight (s : State Payload) (f : Nat) (ph : FlightPhase) (t : Uuid) :
    (s.setFlight f ph).gen t = s.gen t := rfl

/-- Every operation leads to a later state. -/
theorem later_of_does (h : Does json s a s') : Later s s' := by
  have hsame : ∀ {f : Nat} {fl : Flight}, s.flights[f]? = some fl →
      ∃ fl' : Flight, s.flights[f]? = some fl' ∧ fl.SameAs fl' := fun h => ⟨_, h, rfl, rfl, rfl⟩
  cases h with
  | call p t n => exact .of_frame rfl rfl (fun _ => rfl) hsame
  | move hc hm => exact .of_frame rfl rfl (fun _ => rfl) hsame
  | lead hc hph =>
    refine .of_frame rfl rfl (fun _ => rfl) fun {f fl} hf => ⟨fl, ?_, rfl, rfl, rfl⟩
    exact (List.getElem?_append_left (List.getElem?_eq_some_iff.1 hf).1).trans hf
  | land hf hl =>
    exact .of_frame rfl rfl (fun _ => rfl) fun h => ⟨_, getElem?_setFlight _ _ _ h, rfl, rfl, rfl⟩
  | @store f fl m p hf hr hp =>
    refine .of_frame rfl rfl (fun t => ?_) fun h => ⟨_, getElem?_setFlight _ _ _ h, rfl, rfl, rfl⟩
    rw [gen_setFlight]
    exact gen_insert_nodeKey s fl.tenantId t fl.nodeId fl.generation (.payload p)
  | expire hk => exact .of_frame rfl rfl (gen_erase hk) hsame
  | commit _ =>
    refine ⟨by simp, fun k hk => ?_, fun _ => le_rfl, fun {j e v} hj _ => ?_,
      fun {j e v} hj hv => ?_, hsame⟩
    · cases k with
      | zero => rfl
      | succ k => simp only [State.dbAt, List.getElem?_append_left hk]
    · exact (List.getElem?_append_left (List.getElem?_eq_some_iff.1 hj).1).trans hj
    · rw [List.getElem?_append] at hj
      split at hj
      · exact .inl hj
      · rw [List.mem_singleton.1 (List.mem_of_getElem? hj)] at hv
        cases hv
  | @incr j n e he hb hn =>
    have hgen := gen_incr hn (s.log.set j { e with bumped := some (n + 1) })
    have hn' : s.gen e.tenantId = n := by rw [gen, hn, Option.getD_some]
    refine ⟨by simp, fun k hk => ?_, fun t => ?_, fun {j' e' v} hj hv => ?_,
      fun {j' e' v} hj hv => ?_, hsame⟩
    · cases k with
      | zero => rfl
      | succ k =>
        simp only [State.dbAt, List.getElem?_set]
        split
        · next hjk =>
          subst hjk
          rw [if_pos (List.getElem?_eq_some_iff.1 he).1, he]
          rfl
        · rfl
    · rw [hgen]
      split <;> omega
    · rw [List.getElem?_set_ne]
      · exact hj
      · rintro rfl
        rw [he] at hj
        cases hj
        rw [hb] at hv
        cases hv
    · rw [List.getElem?_set] at hj
      split at hj
      · split at hj
        · cases hj
          cases hv
          refine .inr ⟨by simp only; omega, ?_⟩
          rw [hgen, if_pos rfl]
          simp only
          omega
        · cases hj
      · exact .inl hj

/-! ## Coherence -/

/-- `m` is the node's metadata in a committed state with every commit of the tenant that was ever
given a number up to `g`. -/
def Fresh (s : State Payload) (t : Uuid) (g : Nat) (n : Uuid) (m : NodeMeta) : Prop :=
  ∃ k ≤ s.log.length, loadMeta (s.dbAt k) t n = some m ∧
    ∀ j e v, s.log[j]? = some e → e.tenantId = t → e.bumped = some v → v ≤ g → j < k

variable {i : Nat} {c : Call} {m : NodeMeta}

/-- What was fresh stays fresh: numbers given later are greater. -/
theorem Fresh.later (h : s.Fresh t g n m) (hg : g ≤ s.gen t) (hl : Later s s') :
    s'.Fresh t g n m := by
  obtain ⟨k, hk, hm, hall⟩ := h
  refine ⟨k, hk.trans hl.length, by rwa [hl.dbAt k hk], fun j e v hj ht hv hvg => ?_⟩
  rcases hl.given hj hv with hold | ⟨hnew, -⟩
  · exact hall j e v hold ht hv hvg
  · rw [ht] at hnew
    omega

/-- What is read now has every commit. -/
theorem fresh_now (g : Nat) (h : loadMeta (s.dbAt s.log.length) t n = some m) : s.Fresh t g n m :=
  ⟨_, le_rfl, h, fun _ _ _ hj _ _ _ => (List.getElem?_eq_some_iff.1 hj).1⟩

/-- The invariant: nobody is ahead of a tenant's counter, and what has been loaded or stored under
a generation is fresh for it. -/
structure Coherent (json : Json Payload) (s : State Payload) : Prop where
  numbers : ∀ {j : Nat} {e : Commit} {v : Nat}, s.log[j]? = some e → e.bumped = some v →
    v ≤ s.gen e.tenantId
  calls : ∀ c ∈ s.calls, ∀ g, c.phase = .generation g ∨ c.phase = .missed g → g ≤ s.gen c.tenantId
  flights : ∀ fl ∈ s.flights, fl.generation ≤ s.gen fl.tenantId ∧
    ∀ m, fl.phase.result = some m → s.Fresh fl.tenantId fl.generation fl.nodeId m
  entries : ∀ {t g n m}, s.entry json (nodeKey t g n) = some m →
    g ≤ s.gen t ∧ s.Fresh t g n m

theorem coherent_init (seed : Db) : Coherent json (init seed : State Payload) where
  numbers h := by simp [init] at h
  calls _ h := by simp [init] at h
  flights _ h := by simp [init] at h
  entries h := by simp [init, entry] at h

/-- Reading the counter gives the generation of the tenant. -/
theorem gen_eq_of_generation (h : s.generation t = some g) : s.gen t = g := by
  rw [gen, h, Option.getD_some]

/-- How the entries look after a change of one key. -/
theorem entry_of_insert (hs : s'.redis = s.redis.insert key v) (key' : List Char) :
    s'.entry json key' = if key' = key then v.decode json else s.entry json key' := by
  rw [entry, hs, Table.lookup_insert_eq]
  split
  · rfl
  · rfl

theorem entry_of_erase (h : entry json { s with redis := s.redis.erase key } key' = some m) :
    s.entry json key' = some m := by
  rw [entry, Table.lookup_erase_eq] at h
  split at h
  · cases h
  · exact h

/-- What a call knows after it has gone on, it knew before or has just read. -/
theorem Coherent.move (h : Coherent json s) {ph : CallPhase} (hc : c ∈ s.calls)
    (hm : Moves json s a c ph) (hg : ph = .generation g ∨ ph = .missed g) :
    g ≤ s.gen c.tenantId := by
  cases hm with
  | generation hr =>
    rcases hg with hg | hg <;> cases hg
    exact (gen_eq_of_generation hr).ge
  | miss hph =>
    rcases hg with hg | hg <;> cases hg
    exact h.calls c hc _ (.inl hph)
  | hit _ _ | bypass | load _ _ | fail | join _ _ _ | receive _ _ _ =>
    rcases hg with hg | hg <;> cases hg

/-- The calls after one of them has gone on. -/
theorem mem_setPhase {ph : CallPhase} (h : c ∈ (s.setPhase i ph).calls) : c ∈ s.calls ∨
      ∃ c₀, s.calls[i]? = some c₀ ∧ c = { c₀ with phase := ph } :=
  Run.mem_modify h

/-- The flights after one of them has gone on. -/
theorem mem_setFlight (h : fl ∈ (s.setFlight f ph).flights) : fl ∈ s.flights ∨
      ∃ fl₀, s.flights[f]? = some fl₀ ∧ fl = { fl₀ with phase := ph } :=
  Run.mem_modify h

/-- **One operation keeps the cache coherent.** -/
theorem Coherent.step (h : Coherent json s) (hd : Does json s a s') : Coherent json s' := by
  have hl := later_of_does hd
  -- calls, flights and entries that were there before
  have hcall : ∀ c ∈ s.calls, ∀ g, c.phase = .generation g ∨ c.phase = .missed g →
      g ≤ s'.gen c.tenantId := fun c hc g hg => (h.calls c hc g hg).trans (hl.gen _)
  have hflight : ∀ fl ∈ s.flights, fl.generation ≤ s'.gen fl.tenantId ∧
      ∀ m, fl.phase.result = some m → s'.Fresh fl.tenantId fl.generation fl.nodeId m := by
    intro fl hfl
    obtain ⟨hg, hm⟩ := h.flights fl hfl
    exact ⟨hg.trans (hl.gen _), fun m hr => (hm m hr).later hg hl⟩
  have hentry : ∀ {t g n m}, s.entry json (nodeKey t g n) = some m →
      g ≤ s'.gen t ∧ s'.Fresh t g n m := by
    intro t g n m he
    obtain ⟨hg, hf⟩ := h.entries he
    exact ⟨hg.trans (hl.gen _), hf.later hg hl⟩
  have hnumbers : ∀ {j : Nat} {e : Commit} {v : Nat}, s'.log[j]? = some e → e.bumped = some v →
      v ≤ s'.gen e.tenantId := by
    intro j e v hj hv
    rcases hl.given hj hv with hold | ⟨-, hnew⟩
    · exact (h.numbers hold hv).trans (hl.gen _)
    · exact hnew
  -- a flight that goes on: what it has read is fresh
  have hland : ∀ {f : Nat} {fl₀ fl : Flight} {ph : FlightPhase}, s.flights[f]? = some fl₀ →
      Lands s a fl₀ ph → fl = { fl₀ with phase := ph } → fl.generation ≤ s'.gen fl.tenantId ∧
      ∀ m, fl.phase.result = some m → s'.Fresh fl.tenantId fl.generation fl.nodeId m := by
    rintro f fl₀ _ ph hf hph rfl
    have hmem := List.mem_of_getElem? hf
    refine ⟨(hflight fl₀ hmem).1, fun m hm => ?_⟩
    rcases hph m hm with hold | ⟨-, hnow⟩
    · exact (hflight fl₀ hmem).2 m hold
    · exact (fresh_now _ hnow).later (h.flights fl₀ hmem).1 hl
  cases hd with
  | call p t n =>
    refine ⟨hnumbers, fun c hc g hg => ?_, hflight, hentry⟩
    rcases List.mem_append.1 hc with hc | hc
    · exact hcall c hc g hg
    · rw [List.mem_singleton.1 hc] at hg
      rcases hg with hg | hg <;> cases hg
  | move hi hm =>
    refine ⟨hnumbers, fun c hc g hg => ?_, hflight, hentry⟩
    rcases mem_setPhase hc with hc | ⟨c₀, hc₀, rfl⟩
    · exact hcall c hc g hg
    · cases hi.symm.trans hc₀
      exact (h.move (List.mem_of_getElem? hi) hm hg :)
  | @lead i g₀ c₁ hi hph =>
    refine ⟨hnumbers, fun c hc g hg => ?_, fun fl hfl => ?_, hentry⟩
    · rcases mem_setPhase hc with hc | ⟨c₀, hc₀, rfl⟩
      · exact hcall c hc g hg
      · rcases hg with hg | hg <;> cases hg
    · rcases List.mem_append.1 hfl with hfl | hfl
      · exact hflight fl hfl
      · rw [List.mem_singleton.1 hfl]
        refine ⟨hcall c₁ (List.mem_of_getElem? hi) g₀ (.inr hph), fun m hm => ?_⟩
        cases hm
  | land hf hph =>
    refine ⟨hnumbers, hcall, fun fl hfl => ?_, hentry⟩
    rcases mem_setFlight hfl with hfl | ⟨fl₀, hfl₀, rfl⟩
    · exact hflight fl hfl
    · cases hf.symm.trans hfl₀
      exact hland hf hph rfl
  | @store f fl₁ m p hf hr hp =>
    refine ⟨hnumbers, hcall, fun fl hfl => ?_, fun {t g n m'} he => ?_⟩
    · rcases mem_setFlight hfl with hfl | ⟨fl₀, hfl₀, rfl⟩
      · exact hflight fl hfl
      · cases hf.symm.trans hfl₀
        have hph : Lands s a fl₁ (.stored (some m)) := lands_of_result_eq hr
        exact hland hf hph rfl
    · rw [entry_of_insert rfl] at he
      split at he
      · next hkey =>
        -- the entry that has just been written is the flight's
        obtain ⟨rfl, rfl, rfl⟩ := nodeKey_inj hkey
        cases hp.symm.trans he
        have hfl := hflight fl₁ (List.mem_of_getElem? hf)
        exact ⟨hfl.1, hfl.2 m hr⟩
      · exact hentry he
  | expire hk =>
    refine ⟨hnumbers, hcall, hflight, fun he => ?_⟩
    exact hentry (entry_of_erase he)
  | commit _ => exact ⟨hnumbers, hcall, hflight, hentry⟩
  | @incr j n e he hb hn =>
    refine ⟨hnumbers, hcall, hflight, fun {t g n' m} hm => ?_⟩
    rw [entry_of_insert rfl, if_neg (nodeKey_ne_generationKey t e.tenantId n' g)] at hm
    exact hentry hm

/-- **Every run keeps the cache coherent.** -/
theorem Coherent.run (h : Coherent json s) (hr : s.run json as = some s') : Coherent json s' :=
  Run.invariant (fun h hs => h.step (does_of_step hs)) h hr

/-! ## What a call returns -/

/-- `m` is the node's metadata in a committed state that has the commit with index `j`. -/
def Includes (s : State Payload) (j : Nat) (t n : Uuid) (m : NodeMeta) : Prop :=
  ∃ k, j < k ∧ k ≤ s.log.length ∧ loadMeta (s.dbAt k) t n = some m

variable {j v : Nat} {e : Commit}

theorem Includes.later (h : s.Includes j t n m) (hl : Later s s') : s'.Includes j t n m := by
  obtain ⟨k, hj, hk, hm⟩ := h
  exact ⟨k, hj, hk.trans hl.length, by rwa [hl.dbAt k hk]⟩

/-- A commit of the tenant that was given the number `v` is in what is fresh for a generation from
`v` on. -/
theorem Fresh.includes (h : s.Fresh t g n m) (hj : s.log[j]? = some e) (ht : e.tenantId = t)
    (hv : e.bumped = some v) (hg : v ≤ g) : s.Includes j t n m := by
  obtain ⟨k, hk, hm, hall⟩ := h
  exact ⟨k, hall j e v hj ht hv hg, hk, hm⟩

/-- A call that began after the commit with index `j` had been given the number `v`: it works
under a generation from `v` on, and returns what includes the commit. -/
def Informed (s : State Payload) (j v : Nat) (c : Call) : Prop :=
  match c.phase with
  | .called => True
  | .generation g => v ≤ g
  | .missed g => v ≤ g
  | .bypass => True
  | .waiting f => ∃ fl, s.flights[f]? = some fl ∧ fl.tenantId = c.tenantId ∧
    fl.nodeId = c.nodeId ∧ v ≤ fl.generation
  | .returned r => ∀ m, r = some m → s.Includes j c.tenantId c.nodeId m

theorem Informed.later (h : s.Informed j v c) (hl : Later s s') : s'.Informed j v c := by
  unfold Informed at h ⊢
  split <;> rename_i hph <;> rw [hph] at h
  · trivial
  · exact h
  · exact h
  · trivial
  · obtain ⟨fl, hfl, ht, hn, hv⟩ := h
    obtain ⟨fl', hfl', ht', hg', hn'⟩ := hl.flights hfl
    exact ⟨fl', hfl', ht'.trans ht, hn'.trans hn, hg'.symm ▸ hv⟩
  · exact fun m hm => (h m hm).later hl

/-- An informed call goes on informed. -/
theorem Informed.move {ph : CallPhase} (h : s.Informed j v c) (hs : Coherent json s)
    (hj : s.log[j]? = some e) (hv : e.bumped = some v) (ht : c.tenantId = e.tenantId)
    (hm : Moves json s a c ph) : s.Informed j v { c with phase := ph } := by
  unfold Informed at h ⊢
  cases hm with
  | generation hg =>
    have hle := hs.numbers hj hv
    rwa [← ht, gen_eq_of_generation hg] at hle
  | hit hph hr =>
    rw [hph] at h
    rintro m ⟨⟩
    exact (hs.entries hr).2.includes hj ht.symm hv h
  | miss hph =>
    rw [hph] at h
    exact h
  | bypass => trivial
  | load _ hr =>
    rintro m ⟨⟩
    exact (fresh_now v hr).includes hj ht.symm hv le_rfl
  | fail => rintro m ⟨⟩
  | join hph hfl hkey =>
    rw [hph] at h
    obtain ⟨hft, hfg, hfn⟩ := nodeKey_inj hkey
    exact ⟨_, hfl, hft, hfn, hfg.symm ▸ h⟩
  | @receive f fl m hph hfl hr =>
    rw [hph] at h
    rintro _ ⟨⟩
    obtain ⟨fl', hfl', hft, hfn, hfg⟩ := h
    cases hfl.symm.trans hfl'
    have hfresh := (hs.flights fl (List.mem_of_getElem? hfl)).2 m hr
    rw [hft, hfn] at hfresh
    exact hfresh.includes hj ht.symm hv hfg

theorem getElem?_setPhase_self (ph : CallPhase) (h : s.calls[i]? = some c) :
    (s.setPhase i ph).calls[i]? = some { c with phase := ph } := by
  simp [setPhase, h]

/-- **One operation keeps an informed call informed**, whoever performs it. -/
theorem Informed.step (h : s.Informed j v c) (hs : Coherent json s) (hj : s.log[j]? = some e)
    (hv : e.bumped = some v) (ht : c.tenantId = e.tenantId) (hc : s.calls[i]? = some c)
    (hd : Does json s a s') : ∃ c', s'.calls[i]? = some c' ∧ c'.tenantId = c.tenantId ∧
      c'.nodeId = c.nodeId ∧ s'.Informed j v c' := by
  have hl := later_of_does hd
  -- whatever leaves the call alone leaves it informed
  have hkeep : s'.calls[i]? = s.calls[i]? → ∃ c', s'.calls[i]? = some c' ∧
      c'.tenantId = c.tenantId ∧ c'.nodeId = c.nodeId ∧ s'.Informed j v c' :=
    fun hsame => ⟨c, hsame.trans hc, rfl, rfl, h.later hl⟩
  cases hd with
  | call p t n => exact hkeep (List.getElem?_append_left (List.getElem?_eq_some_iff.1 hc).1)
  | @move k c₁ ph hk hm =>
    by_cases hki : k = i
    · subst hki
      cases hk.symm.trans hc
      exact ⟨_, getElem?_setPhase_self ph hc, rfl, rfl, (h.move hs hj hv ht hm).later hl⟩
    · exact hkeep (by simp [setPhase, hki])
  | @lead k g c₁ hk hph =>
    by_cases hki : k = i
    · subst hki
      cases hk.symm.trans hc
      refine ⟨_, getElem?_setPhase_self (s := s.addFlight _) _ hc, rfl, rfl, ?_⟩
      refine ⟨_, List.getElem?_concat_length, rfl, rfl, ?_⟩
      unfold Informed at h
      rwa [hph] at h
    · exact hkeep (by simp [setPhase, addFlight, hki])
  | land _ _ | store _ _ _ | expire _ | commit _ | incr _ _ _ => exact hkeep rfl

/-- **Every run keeps an informed call informed.** -/
theorem Informed.run (h : s.Informed j v c) (hs : Coherent json s) (hj : s.log[j]? = some e)
    (hv : e.bumped = some v) (ht : c.tenantId = e.tenantId) (hc : s.calls[i]? = some c)
    (hr : s.run json as = some s') : ∃ c', s'.calls[i]? = some c' ∧
      c'.tenantId = c.tenantId ∧ c'.nodeId = c.nodeId ∧ s'.Informed j v c' := by
  induction as generalizing s c with
  | nil =>
    cases hr
    exact ⟨c, hc, rfl, rfl, h⟩
  | cons a as ih =>
    obtain ⟨s₁, hs₁, hr⟩ := Option.bind_eq_some_iff.1 hr
    have hd := does_of_step hs₁
    obtain ⟨c₁, hc₁, ht₁, hn₁, h₁⟩ := h.step hs hj hv ht hc hd
    obtain ⟨c', hc', ht', hn', h'⟩ :=
      ih h₁ (hs.step hd) ((later_of_does hd).kept hj hv) (ht₁.trans ht) hc₁ hr
    exact ⟨c', hc', ht'.trans ht₁, hn'.trans hn₁, h'⟩

/-- **The cache is coherent.** In every interleaving of calls, flights, expiries, commits and
INCRs, a call that begins after the INCR of a commit has completed returns, if it returns a node,
what a committed state with that commit holds. -/
theorem getNodeMetadata_includes_bumped {seed : Db} {as bs : List Act} {s₁ s₂ : State Payload}
    {j v : Nat} {e : Commit} {p : Nat} {n : Uuid} {c : Call} {m : NodeMeta}
    (h₁ : (init seed).run json as = some s₁) (hj : s₁.log[j]? = some e) (hv : e.bumped = some v)
    (h₂ : s₁.run json (.call p e.tenantId n :: bs) = some s₂)
    (hc : s₂.calls[s₁.calls.length]? = some c) (hm : c.phase = .returned (some m)) :
    s₂.Includes j e.tenantId n m := by
  have hs₁ := (coherent_init seed).run h₁
  obtain ⟨s, hs, h₂⟩ := Option.bind_eq_some_iff.1 h₂
  have hd := does_of_step hs
  cases hs
  obtain ⟨c', hc', ht, hn, h⟩ := Informed.run (c := ⟨p, e.tenantId, n, .called⟩) trivial
    (hs₁.step hd) hj hv rfl List.getElem?_concat_length h₂
  cases hc.symm.trans hc'
  unfold Informed at h
  rw [hm] at h
  have hinc := h m rfl
  rwa [ht, hn] at hinc

/-- A database with one directory, at an epoch. -/
def oneNode (epoch : Int) : Db :=
  .seed ∅ (AList.insert 2 ⟨1, none, ['a'], .directory, [(2 : Uuid).nodeLabel], epoch, false⟩ ∅) ∅

/-- The codec that keeps a `NodeMeta` as it is. -/
def plainJson : Json NodeMeta := ⟨some, some, Eq.symm⟩

/-- A flight that has read under generation 0 before a commit, and is stored after its INCR. -/
def lateSet : List Act :=
  [.call 0 1 2, .getGeneration 0 true, .getEntry 0 true, .enter 0, .flightLoad 0 true,
    .commit 1 (oneNode 1), .incr 0, .flightSet 0 true, .flightEnd 0]

/-- What a second call of the same process does. -/
def readAgain : List Act :=
  [.getGeneration 1 true, .getEntry 1 true, .enter 1, .flightLoad 1 true, .flightSet 1 true,
    .flightEnd 1, .receive 1]

/-- After the late SET a new call returns the committed epoch. -/
theorem getNodeMetadata_includes_bumped_lateSet :
    ∃ s₁ s₂ : State NodeMeta, (init (oneNode 0)).run plainJson lateSet = some s₁ ∧
      s₁.run plainJson (.call 0 1 2 :: readAgain) = some s₂ ∧
      s₂.Includes 0 1 2 ⟨(2 : Uuid).text, (1 : Uuid).text, none, ['a'], "DIRECTORY",
        (2 : Uuid).nodeLabel, 1⟩ := by
  have hrun : ((init (oneNode 0)).run plainJson lateSet).bind (fun s₁ =>
      (s₁.run plainJson (.call 0 1 2 :: readAgain)).map fun s₂ =>
        (s₁.log.map fun e => (e.tenantId, e.bumped), s₂.calls[s₁.calls.length]?.map Call.phase)) =
      some ([(1, some 1)], some (.returned (some ⟨(2 : Uuid).text, (1 : Uuid).text, none, ['a'],
        "DIRECTORY", (2 : Uuid).nodeLabel, 1⟩))) := by
    decide +kernel
  obtain ⟨s₁, h₁, hrun⟩ := Option.bind_eq_some_iff.1 hrun
  obtain ⟨s₂, h₂, hlog, hcall⟩ := exists_of_map_eq_pair hrun
  obtain ⟨e, hlog, hpair⟩ := List.map_eq_singleton_iff.1 hlog
  obtain ⟨ht, hv⟩ := Prod.mk.inj hpair
  obtain ⟨c, hc, hm⟩ := Option.map_eq_some_iff.1 hcall
  have hj : s₁.log[0]? = some e := by rw [hlog]; rfl
  have h₂' : s₁.run plainJson (.call 0 e.tenantId 2 :: readAgain) = some s₂ := by rwa [ht]
  have hinc := getNodeMetadata_includes_bumped h₁ hj hv h₂' hc hm
  rw [ht] at hinc
  exact ⟨s₁, s₂, h₁, h₂, hinc⟩

end State

end Aegis.Database
