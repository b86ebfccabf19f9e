import Aegis.Lib.Run
import Aegis.Lock.Redis

/-!
# Mutual exclusion of Redis locks

Any number of clients acquire, release and refresh locks while time passes. A call is one command,
which Redis runs as a whole, so a run is a sequence of calls with the results they return. Whether a
token is in force is told by these results alone: from its `Acquire`, until its first `Release` that
succeeds, or until the deadline that its last `Acquire` or `Refresh` has set. Redis agrees with
that: the key of a resource has a value exactly if a token is in force, and the value is its id.
-/

namespace Aegis.Lock

/-! ## Runs -/

/-- A call with its result. -/
inductive Done
  | acquire (tokenId resource : List Char) (ttl : Nat) (result : Except LockError RedisToken)
  | release (token : RedisToken) (result : Except LockError Unit)
  | refresh (token : RedisToken) (ttl : Nat) (result : Except LockError Unit)

/-- The keys of Redis, its clock, and the calls so far with their times, the last one first. -/
structure Lockers where
  redis : Redis
  now : Nat
  past : List (Nat × Done)

/-- Time passes, or a client calls. -/
inductive Action
  | tick (ms : Nat)
  | acquire (tokenId resource : List Char) (ttl : Nat)
  | release (token : RedisToken)
  | refresh (token : RedisToken) (ttl : Nat)

namespace Lockers

def init (now : Nat) : Lockers := ⟨∅, now, []⟩

/-- `Acquire` now. -/
def acquire (x : Lockers) (tokenId resource : List Char) (ttl : Nat) :
    Except LockError RedisToken × Redis :=
  (Lock.acquire tokenId resource ttl).eval (Redis.exec x.now) x.redis

/-- `Release` now. -/
def release (x : Lockers) (token : RedisToken) : Except LockError Unit × Redis :=
  (Lock.release token).eval (Redis.exec x.now) x.redis

/-- `Refresh` now. -/
def refresh (x : Lockers) (token : RedisToken) (ttl : Nat) : Except LockError Unit × Redis :=
  (Lock.refresh token ttl).eval (Redis.exec x.now) x.redis

/-- What is left of a call. -/
def record (x : Lockers) (redis : Redis) (done : Done) : Lockers :=
  ⟨redis, x.now, (x.now, done) :: x.past⟩

/-- The id has been generated before. -/
def generated (tokenId : List Char) (past : List (Nat × Done)) : Bool :=
  past.any fun e => match e.2 with
    | .acquire tokenId' _ _ _ => tokenId' = tokenId
    | _ => false

/-- Whole milliseconds, at least one. -/
def wholeMillis (ttl : Nat) : Bool := 0 < ttl && ttl % 10 ^ 6 = 0

/-- One action. A generated id is new, and expiries are whole milliseconds. -/
def step (x : Lockers) : Action → Option Lockers
  | .tick ms => some { x with now := x.now + ms }
  | .acquire tokenId resource ttl =>
    if generated tokenId x.past || !wholeMillis ttl then none
    else
      let (result, redis) := x.acquire tokenId resource ttl
      some (x.record redis (.acquire tokenId resource ttl result))
  | .release token =>
    let (result, redis) := x.release token
    some (x.record redis (.release token result))
  | .refresh token ttl =>
    if !wholeMillis ttl then none
    else
      let (result, redis) := x.refresh token ttl
      some (x.record redis (.refresh token ttl result))

end Lockers

/-! ## Tokens in force -/

/-- The deadline that the last successful `Acquire` or `Refresh` of a token has set. -/
def deadline (resource id : List Char) : List (Nat × Done) → Option Nat
  | [] => none
  | (t, .acquire _ _ ttl (.ok token)) :: past =>
    if token.resource = resource ∧ token.id = id then some (t + ttl / 10 ^ 6)
    else deadline resource id past
  | (t, .refresh token ttl (.ok ())) :: past =>
    if token.resource = resource ∧ token.id = id then some (t + ttl / 10 ^ 6)
    else deadline resource id past
  | _ :: past => deadline resource id past

/-- A `Release` of the token has succeeded. -/
def released (resource id : List Char) : List (Nat × Done) → Bool
  | [] => false
  | (_, .release token (.ok ())) :: past =>
    token.resource = resource && token.id = id || released resource id past
  | _ :: past => released resource id past

/-- The token of a resource with this id is in force. -/
def InForce (x : Lockers) (resource id : List Char) : Prop :=
  released resource id x.past = false ∧ ∃ d, deadline resource id x.past = some d ∧ x.now ≤ d

/-- **Mutual exclusion**: one token of a resource is in force at most; a call with a token that is
not in force fails, and leaves the tokens in force and their deadlines as they are; and a lock can
be acquired exactly if no token of its resource is in force. -/
structure Exclusive (x : Lockers) : Prop where
  one : ∀ resource id id', InForce x resource id → InForce x resource id' → id = id'
  release : ∀ token x', ¬ InForce x token.resource token.id →
    x.step (.release token) = some x' → (x.release token).1 = .error .expired ∧
      x'.redis = x.redis ∧ ∀ resource id, (InForce x' resource id ↔ InForce x resource id) ∧
        deadline resource id x'.past = deadline resource id x.past
  refresh : ∀ token ttl x', ¬ InForce x token.resource token.id →
    x.step (.refresh token ttl) = some x' → (x.refresh token ttl).1 = .error .expired ∧
      x'.redis = x.redis ∧ ∀ resource id, (InForce x' resource id ↔ InForce x resource id) ∧
        deadline resource id x'.past = deadline resource id x.past
  acquire : ∀ tokenId resource ttl,
    (x.acquire tokenId resource ttl).1 = .ok ⟨resource, tokenId, ttl⟩ ↔
      ∀ id, ¬ InForce x resource id

/-! ## Redis and the history -/

/-- Redis has what the history tells: an entry is of a token that was not released, with its
deadline; a token in force has its entry; and only generated ids occur. -/
structure Agrees (x : Lockers) : Prop where
  entry : ∀ resource id d, x.redis.lookup (lockKey resource) = some ⟨id, d⟩ →
    released resource id x.past = false ∧ deadline resource id x.past = some d
  holder : ∀ resource id d, released resource id x.past = false →
    deadline resource id x.past = some d → x.now ≤ d →
    x.redis.lookup (lockKey resource) = some ⟨id, d⟩
  known : ∀ resource id, released resource id x.past = true ∨
    (deadline resource id x.past).isSome = true → Lockers.generated id x.past = true

variable {x x' : Lockers} {resource id : List Char}

/-- **The value of a key is the id of the token in force.** -/
theorem Agrees.get_iff (h : Agrees x) :
    x.redis.get x.now (lockKey resource) = some id ↔ InForce x resource id := by
  rw [Redis.get_eq_some]
  constructor
  · rintro ⟨d, he, hle⟩
    obtain ⟨hrel, hdl⟩ := h.entry resource id d he
    exact ⟨hrel, d, hdl, hle⟩
  · rintro ⟨hrel, d, hdl, hle⟩
    exact ⟨d, h.holder resource id d hrel hdl hle, hle⟩

theorem Agrees.isSome_iff (h : Agrees x) :
    (x.redis.get x.now (lockKey resource)).isSome = true ↔ ∃ id, InForce x resource id := by
  rw [Option.isSome_iff_exists]
  exact exists_congr fun id => h.get_iff

/-! ## Steps -/

/-- A record that tells nothing of any token: of a call that failed. -/
structure Failed (x x' : Lockers) : Prop where
  redis : x'.redis = x.redis
  now : x'.now = x.now
  deadline : ∀ resource id, deadline resource id x'.past = deadline resource id x.past
  released : ∀ resource id, released resource id x'.past = released resource id x.past
  generated : ∀ id, Lockers.generated id x.past = true → Lockers.generated id x'.past = true

/-- What an action can do. -/
inductive Moves (x : Lockers) : Lockers → Prop
  | tick (ms : Nat) : Moves x { x with now := x.now + ms }
  | failed (y : Lockers) : Failed x y → Moves x y
  | acquired (tokenId resource : List Char) (ttl : Nat) : Lockers.generated tokenId x.past = false →
      Lockers.wholeMillis ttl = true → x.redis.get x.now (lockKey resource) = none →
      Moves x (x.record
        (x.redis.insert (lockKey resource) ⟨tokenId, x.now + ttl / 10 ^ 6⟩)
        (.acquire tokenId resource ttl (.ok ⟨resource, tokenId, ttl⟩)))
  | released (token : RedisToken) : x.redis.get x.now (lockKey token.resource) = some token.id →
      Moves x (x.record (x.redis.erase (lockKey token.resource)) (.release token (.ok ())))
  | refreshed (token : RedisToken) (ttl : Nat) : Lockers.wholeMillis ttl = true →
      x.redis.get x.now (lockKey token.resource) = some token.id →
      Moves x (x.record
        (x.redis.insert (lockKey token.resource) ⟨token.id, x.now + ttl / 10 ^ 6⟩)
        (.refresh token ttl (.ok ())))

variable {ttl : Nat} {e : LockError} {token : RedisToken}

theorem le_of_wholeMillis (h : Lockers.wholeMillis ttl = true) : 10 ^ 6 ≤ ttl := by
  simp only [Lockers.wholeMillis, Bool.and_eq_true, decide_eq_true_eq] at h
  omega

theorem milliseconds_ne_zero (h : Lockers.wholeMillis ttl = true) : milliseconds ttl ≠ 0 := by
  have hle := le_of_wholeMillis h
  unfold milliseconds
  omega

theorem failed_release : Failed x (x.record x.redis (.release token (.error e))) :=
  ⟨rfl, rfl, fun _ _ => rfl, fun _ _ => rfl, fun _ h => h⟩

theorem failed_refresh : Failed x (x.record x.redis (.refresh token ttl (.error e))) :=
  ⟨rfl, rfl, fun _ _ => rfl, fun _ _ => rfl, fun _ h => h⟩

theorem failed_acquire :
    Failed x (x.record x.redis (.acquire tokenId resource ttl (.error e))) := by
  refine ⟨rfl, rfl, fun _ _ => rfl, fun _ _ => rfl, fun id h => ?_⟩
  show (_ || _) = true
  rw [show (x.past.any _) = true from h, Bool.or_true]

/-- **Every action makes one of the moves.** -/
theorem moves_of_step (h : x.step a = some x') : Moves x x' := by
  cases a with
  | tick ms =>
    cases h
    exact .tick ms
  | acquire tokenId resource ttl =>
    simp only [Lockers.step, Lockers.acquire, acquire_eval] at h
    split at h
    · cases h
    · next hok =>
      obtain ⟨hnew, hwhole⟩ : Lockers.generated tokenId x.past = false ∧
          Lockers.wholeMillis ttl = true := by simpa using hok
      split at h
      · cases h
        exact .failed _ failed_acquire
      · next hfree =>
        cases h
        rw [formatMs, if_neg (Nat.not_lt.2 (le_of_wholeMillis hwhole))]
        exact .acquired tokenId resource ttl hnew hwhole (by simpa using hfree)
  | release token =>
    simp only [Lockers.step, Lockers.release, release_eval] at h
    split at h
    · next hheld =>
      cases h
      exact .released token hheld
    · cases h
      exact .failed _ failed_release
  | refresh token ttl =>
    simp only [Lockers.step, Lockers.refresh, refresh_eval] at h
    split at h
    · cases h
    · next hok =>
      have hwhole : Lockers.wholeMillis ttl = true := by simpa using hok
      split at h
      · next hheld =>
        cases h
        rw [if_neg (milliseconds_ne_zero hwhole)]
        exact .refreshed token ttl hwhole hheld
      · cases h
        exact .failed _ failed_refresh

/-! ## The agreement is kept -/

theorem Agrees.tick (h : Agrees x) (ms : Nat) : Agrees { x with now := x.now + ms } where
  entry := h.entry
  holder resource id d hrel hdl hle := h.holder resource id d hrel hdl (le_of_add_le_left hle)
  known := h.known

theorem Agrees.failed (h : Agrees x) (hf : Failed x x') : Agrees x' where
  entry resource id d := by
    rw [hf.redis, hf.released, hf.deadline]
    exact h.entry resource id d
  holder resource id d := by
    rw [hf.redis, hf.released, hf.deadline, hf.now]
    exact h.holder resource id d
  known resource id hk := by
    rw [hf.released, hf.deadline] at hk
    exact hf.generated id (h.known resource id hk)

/-- A record about one token that sets its deadline, and the entry to go with it. -/
structure Sets (x x' : Lockers) (resource id : List Char) (d : Nat) : Prop where
  redis : x'.redis = x.redis.insert (lockKey resource) ⟨id, d⟩
  now : x'.now = x.now
  deadline : ∀ r i, deadline r i x'.past =
    if resource = r ∧ id = i then some d else Lock.deadline r i x.past
  released : ∀ r i, released r i x'.past = Lock.released r i x.past
  generated : ∀ i, i = id ∨ Lockers.generated i x.past = true → Lockers.generated i x'.past = true

/-- **The only token of a resource gets a deadline**, where no other one is in force and this one
has not been released. -/
theorem Agrees.sets {d : Nat} (h : Agrees x) (hs : Sets x x' resource id d)
    (hfree : ∀ i, InForce x resource i → i = id) (hrel : released resource id x.past = false) :
    Agrees x' where
  entry r i e := by
    rw [hs.redis, hs.released, hs.deadline, Table.lookup_insert_eq]
    intro he
    split at he
    · next hkey =>
      obtain rfl := lockKey_inj hkey
      cases he
      exact ⟨hrel, if_pos ⟨rfl, rfl⟩⟩
    · next hkey =>
      obtain ⟨hrel', hdl'⟩ := h.entry r i e he
      exact ⟨hrel', by rwa [if_neg fun heq => hkey (congrArg lockKey heq.1.symm)]⟩
  holder r i e := by
    rw [hs.redis, hs.released, hs.deadline, hs.now, Table.lookup_insert_eq]
    intro hrel' hdl' hle
    split at hdl'
    · next heq =>
      obtain ⟨rfl, rfl⟩ := heq
      cases hdl'
      rw [if_pos rfl]
    · next hne =>
      by_cases hr : resource = r
      · subst hr
        exact absurd ⟨rfl, (hfree i ⟨hrel', e, hdl', hle⟩).symm⟩ hne
      · rw [if_neg fun hkey => hr (lockKey_inj hkey).symm]
        exact h.holder r i e hrel' hdl' hle
  known r i hk := by
    rw [hs.released, hs.deadline] at hk
    refine hs.generated i ?_
    split at hk
    · next heq => exact .inl heq.2.symm
    · exact .inr (h.known r i hk)

/-- **The token in force is released**: it has no entry from then on, and there was no other one. -/
theorem Agrees.release (h : Agrees x)
    (hheld : x.redis.get x.now (lockKey token.resource) = some token.id) :
    Agrees (x.record (x.redis.erase (lockKey token.resource)) (.release token (.ok ()))) where
  entry r i e := by
    intro he
    rw [Lockers.record, Table.lookup_erase_eq] at he
    split at he
    · cases he
    · next hkey =>
      obtain ⟨hrel, hdl⟩ := h.entry r i e he
      have hr : decide (token.resource = r) = false :=
        decide_eq_false fun heq => hkey (congrArg lockKey heq.symm)
      refine ⟨?_, hdl⟩
      show (decide (token.resource = r) && _ || _) = false
      rw [hr, Bool.false_and, Bool.false_or]
      exact hrel
  holder r i e := by
    intro hrel hdl hle
    obtain ⟨hother, hrel⟩ := Bool.or_eq_false_iff.1 hrel
    have hentry := h.holder r i e hrel hdl hle
    rw [Lockers.record, Table.lookup_erase_eq]
    split
    · next hkey =>
      obtain rfl := lockKey_inj hkey
      have hget := Redis.get_eq_some.2 ⟨e, hentry, hle⟩
      cases hheld.symm.trans hget
      simp at hother
    · exact hentry
  known r i hk := by
    have hforce := h.get_iff.1 hheld
    obtain ⟨-, d, hd, -⟩ := hforce
    rcases hk with hk | hk
    · rcases Bool.or_eq_true_iff.1 hk with hk | hk
      · obtain ⟨rfl, rfl⟩ : token.resource = r ∧ token.id = i := by simpa using hk
        exact h.known _ _ (.inr (by rw [hd]; rfl))
      · exact h.known r i (.inl hk)
    · exact h.known r i (.inr hk)

/-- **One step.** -/
theorem Agrees.step (h : Agrees x) (hstep : x.step a = some x') : Agrees x' := by
  cases moves_of_step hstep with
  | tick ms => exact h.tick ms
  | failed _ hf => exact h.failed hf
  | acquired tokenId resource ttl hnew hwhole hfree =>
    have hfree' : ∀ i, ¬ InForce x resource i := fun i hi => by
      cases hfree.symm.trans (h.get_iff.2 hi)
    have hrel : released resource tokenId x.past = false := by
      refine Bool.eq_false_iff.2 fun hrel => ?_
      cases hnew.symm.trans (h.known resource tokenId (.inl hrel))
    refine h.sets ⟨rfl, rfl, fun r i => rfl, fun r i => rfl, fun i hi => ?_⟩
      (fun i hi => absurd hi (hfree' i)) hrel
    show (decide (tokenId = i) || _) = true
    rcases hi with rfl | hi
    · rw [decide_eq_true rfl, Bool.true_or]
    · rw [show (x.past.any _) = true from hi, Bool.or_true]
  | released token hheld => exact h.release hheld
  | refreshed token ttl hwhole hheld =>
    have hforce := h.get_iff.1 hheld
    obtain ⟨hrel, d, hd, -⟩ := hforce
    refine h.sets ⟨rfl, rfl, fun r i => rfl, fun r i => rfl, fun i hi => ?_⟩ (fun i hi => ?_) hrel
    · rcases hi with rfl | hi
      · exact h.known token.resource _ (.inr (by rw [hd]; rfl))
      · exact hi
    · exact (Option.some.inj (hheld.symm.trans (h.get_iff.2 hi))).symm

theorem agrees_init (now : Nat) : Agrees (.init now) where
  entry _ _ _ h := nomatch h
  holder _ _ _ _ h := nomatch h
  known _ _ h := by
    rcases h with h | h
    · cases h
    · cases h

/-! ## Mutual exclusion -/

/-- A call that failed leaves the tokens in force and their deadlines as they are. -/
theorem Failed.inForce (hf : Failed x x') (resource id : List Char) :
    (InForce x' resource id ↔ InForce x resource id) ∧
      Lock.deadline resource id x'.past = Lock.deadline resource id x.past := by
  refine ⟨?_, hf.deadline resource id⟩
  rw [InForce, InForce, hf.released, hf.deadline, hf.now]

theorem Agrees.exclusive (h : Agrees x) : Exclusive x where
  one resource id id' hid hid' :=
    Option.some.inj ((h.get_iff.2 hid).symm.trans (h.get_iff.2 hid'))
  release token x' hnot hstep := by
    have hget : x.redis.get x.now (lockKey token.resource) ≠ some token.id :=
      fun hget => hnot (h.get_iff.1 hget)
    have hcall : x.release token = (.error .expired, x.redis) := by
      rw [Lockers.release, release_eval, if_neg hget]
    rw [Lockers.step, hcall] at hstep
    cases hstep
    exact ⟨by rw [hcall], rfl, failed_release.inForce⟩
  refresh token ttl x' hnot hstep := by
    have hget : x.redis.get x.now (lockKey token.resource) ≠ some token.id :=
      fun hget => hnot (h.get_iff.1 hget)
    have hcall : x.refresh token ttl = (.error .expired, x.redis) := by
      rw [Lockers.refresh, refresh_eval, if_neg hget]
    rw [Lockers.step, hcall] at hstep
    split at hstep
    · cases hstep
    · cases hstep
      exact ⟨by rw [hcall], rfl, failed_refresh.inForce⟩
  acquire tokenId resource ttl := by
    rw [Lockers.acquire, acquire_eval]
    split
    · next hheld =>
      obtain ⟨id, hid⟩ := h.isSome_iff.1 hheld
      exact iff_of_false (fun heq => nomatch heq) fun hnone => hnone id hid
    · next hfree =>
      exact iff_of_true rfl fun id hid => hfree (h.isSome_iff.2 ⟨id, hid⟩)

/-- **Redis locks exclude each other**, whatever the clients call and however long it takes. -/
theorem locks_exclusive (now : Nat) (acts : List Action) (x : Lockers)
    (hrun : Run.run Lockers.step (.init now) acts = some x) : Exclusive x := by
  have h : Agrees x := Run.invariant Agrees.step (agrees_init now) hrun
  exact h.exclusive

/-- A lease of ten milliseconds runs out, the lock is taken over, and the old holder is late with
its refresh and its release. -/
def lateHolder : List Action :=
  [.acquire ['a'] ['r'] (10 * 10 ^ 6), .tick 11, .acquire ['b'] ['r'] (10 * 10 ^ 6),
    .refresh ⟨['r'], ['a'], 10 * 10 ^ 6⟩ (10 * 10 ^ 6), .release ⟨['r'], ['a'], 10 * 10 ^ 6⟩]

theorem locks_exclusive_lateHolder :
    ∃ x, Run.run Lockers.step (.init 0) lateHolder = some x ∧ InForce x ['r'] ['b'] ∧
      Exclusive x := by
  have hrun : (Run.run Lockers.step (.init 0) lateHolder).map (fun x =>
      (released ['r'] ['b'] x.past, deadline ['r'] ['b'] x.past, x.now)) =
        some (false, some 21, 11) := by
    decide +kernel
  obtain ⟨x, hx, hval⟩ := Option.map_eq_some_iff.1 hrun
  simp only [Prod.mk.injEq] at hval
  obtain ⟨hrel, hdl, hnow⟩ := hval
  exact ⟨x, hx, ⟨hrel, 21, hdl, by omega⟩, locks_exclusive 0 lateHolder x hx⟩

end Aegis.Lock
