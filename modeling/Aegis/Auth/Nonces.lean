import Aegis.Db.Schema

/-!
# Nonce stores

The two implementations of `NonceStore` (internal/auth/replay.go): Redis `SET NX` with an expiry,
and the map in memory that drops expired entries when it is full. A nonce is live while its entry
has not expired; `NonceStore` says what both do with live nonces.
-/

namespace Aegis.Auth

/-- What `Consume` does: it returns true for a nonce that is not live, which is live from then on
for the given time, and it forgets no live nonce. -/
structure NonceStore (σ : Type) where
  consume : σ → Time → List Char → Time → Bool × σ
  Live : σ → Time → List Char → Prop
  consume_fst : ∀ {s now n ttl}, (consume s now n ttl).1 = true ↔ ¬ Live s now n
  live_keep : ∀ {s now n ttl t m}, now ≤ t → Live s t m → Live (consume s now n ttl).2 t m
  live_fresh : ∀ {s now n ttl t}, (consume s now n ttl).1 = true → t < now + ttl →
    Live (consume s now n ttl).2 t n

/-- Entries with the time at which they expire. -/
abbrev Expiries : Type := Table (List Char) Time

namespace Expiries

/-- The entry is there and has not expired. -/
def live (s : Expiries) (now : Time) (k : List Char) : Bool := (s.lookup k).any fun exp => now < exp

/-- Put an entry that expires at `exp`, unless it is there and has not expired. -/
def setNX (s : Expiries) (now : Time) (k : List Char) (exp : Time) : Bool × Expiries :=
  if s.live now k then (false, s) else (true, s.insert k exp)

/-- Drop what has expired. -/
def sweep (s : Expiries) (now : Time) : Expiries :=
  (s.keysWhere fun _ exp => !(now < exp)).foldl (fun s k => s.erase k) s

variable {s : Expiries} {now exp t : Time} {k k' : List Char}

theorem live_iff : s.live now k = true ↔ ∃ exp, s.lookup k = some exp ∧ now < exp := by
  simp [live, Option.any_eq_true]

theorem live_insert :
    live (s.insert k exp) t k' = if k' = k then decide (t < exp) else s.live t k' := by
  unfold live
  rw [Table.lookup_insert_eq]
  split <;> simp

theorem setNX_fst : (s.setNX now k exp).1 = true ↔ ¬ s.live now k = true := by
  unfold setNX
  split <;> simp_all

theorem setNX_of_not_live (h : s.live now k = false) :
    s.setNX now k exp = (true, s.insert k exp) := by
  rw [setNX, h]
  rfl

/-- An entry that was put over another one was not live. -/
theorem live_setNX (hle : now ≤ t) (h : s.live t k' = true) :
    (s.setNX now k exp).2.live t k' = true := by
  unfold setNX
  split
  · exact h
  · next hdead =>
    rw [live_insert]
    split
    · next heq =>
      obtain ⟨exp', hlookup, hlt⟩ := live_iff.1 h
      exact absurd (live_iff.2 ⟨exp', heq ▸ hlookup, hle.trans_lt hlt⟩) hdead
    · exact h

theorem live_setNX_fresh (hfresh : (s.setNX now k exp).1 = true) (ht : t < exp) :
    (s.setNX now k exp).2.live t k = true := by
  unfold setNX
  rw [if_neg (setNX_fst.1 hfresh), live_insert, if_pos rfl]
  exact decide_eq_true ht

/-- No entry is taken away. -/
theorem isSome_lookup_setNX (h : (s.lookup k').isSome = true) :
    ((s.setNX now k exp).2.lookup k').isSome = true := by
  unfold setNX
  split
  · exact h
  · rw [Table.lookup_insert_eq]
    split
    · rfl
    · exact h

theorem lookup_setNX_fresh (hfresh : (s.setNX now k exp).1 = true) :
    (s.setNX now k exp).2.lookup k = some exp := by
  unfold setNX
  rw [if_neg (setNX_fst.1 hfresh), Table.lookup_insert_eq, if_pos rfl]

/-- Nothing live is dropped. -/
theorem live_sweep (hle : now ≤ t) : (s.sweep now).live t k = s.live t k := by
  unfold live sweep
  rw [Table.lookup_foldl_erase]
  split
  · next hmem =>
    obtain ⟨exp, hlookup, hexp⟩ := Table.mem_keysWhere.1 hmem
    have hdead : ¬ now < exp := by simpa using hexp
    have hdead' : ¬ t < exp := fun hlt => hdead (hle.trans_lt hlt)
    simp [hlookup, hdead']
  · rfl

end Expiries

/-! ## Redis -/

/-- `nonceKeyPrefix`. -/
def nonceKeyPrefix : List Char := ['a', 'e', 'g', 'i', 's', ':', 'n', 'o', 'n', 'c', 'e', ':']

/-- `nonceKey`. -/
def nonceKey (sha256 : List Char → Hash) (nonce : List Char) : List Char :=
  nonceKeyPrefix ++ hexText 64 (sha256 (nonceKeyPrefix ++ nonce)).toNat

/-- `RedisNonceStore`, on the keys and expiries that Redis holds. Times to live are positive. -/
def redisNonceStore (sha256 : List Char → Hash) : NonceStore Expiries where
  consume s now nonce ttl := s.setNX now (nonceKey sha256 nonce) (now + ttl)
  Live s now nonce := s.live now (nonceKey sha256 nonce) = true
  consume_fst := Expiries.setNX_fst
  live_keep := Expiries.live_setNX
  live_fresh := Expiries.live_setNX_fresh

/-! ## In memory -/

/-- `NewInMemoryNonceStore`: the bound in force. -/
def maxSize (maxEntries : Int) : Nat := if maxEntries ≤ 0 then 2 ^ 20 else maxEntries.toNat

/-- `InMemoryNonceStore`. -/
def inMemoryNonceStore (maxEntries : Int) : NonceStore Expiries where
  consume s now nonce ttl :=
    let seen := if maxSize maxEntries ≤ s.entries.length then s.sweep now else s
    seen.setNX now nonce (now + ttl)
  Live s now nonce := s.live now nonce = true
  consume_fst := by
    intro s now n ttl
    rw [Expiries.setNX_fst]
    split
    · rw [Expiries.live_sweep le_rfl]
    · rfl
  live_keep := by
    intro s now n ttl t m hle h
    refine Expiries.live_setNX hle ?_
    split
    · rwa [Expiries.live_sweep hle]
    · exact h
  live_fresh := Expiries.live_setNX_fresh

end Aegis.Auth
