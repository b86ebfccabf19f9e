import Aegis.Lib.Effect
import Aegis.Lib.Table

/-!
# Redis locks

`RedisLocker` (internal/lock/redlock.go) as programs over the three commands it sends: `SET NX` with
an expiry, and the two scripts that compare the token before they delete the key or set its expiry.
Redis runs a command or a script as a whole. A key is gone when the clock has passed its deadline;
server time is in milliseconds. The generated token id is an argument, and expiries are positive.
-/

namespace Aegis.Lock

/-! ## Redis -/

/-- The value of a key with its expiry. -/
structure Entry where
  value : List Char
  deadline : Nat
  deriving DecidableEq

/-- The keys of a Redis database. -/
abbrev Redis : Type := Table (List Char) Entry

namespace Redis

/-- `GET`. -/
def get (s : Redis) (now : Nat) (key : List Char) : Option (List Char) :=
  ((s.lookup key).filter fun e => now ≤ e.deadline).map Entry.value

/-- `SET key value PX px NX`. -/
def setNX (s : Redis) (now : Nat) (key value : List Char) (px : Nat) : Bool × Redis :=
  if (s.get now key).isSome then (false, s) else (true, s.insert key ⟨value, now + px⟩)

/-- `unlockScript`. -/
def unlockScript (s : Redis) (now : Nat) (key id : List Char) : Int × Redis :=
  if s.get now key = some id then (1, s.erase key) else (0, s)

/-- `refreshScript`. `PEXPIRE` deletes a key that is to expire at once. -/
def refreshScript (s : Redis) (now : Nat) (key id : List Char) (px : Nat) : Int × Redis :=
  if s.get now key = some id then
    (1, if px = 0 then s.erase key else s.insert key ⟨id, now + px⟩)
  else (0, s)

variable {s : Redis} {now : Nat} {key id : List Char}

theorem setNX_of_get (h : s.get now key = some id) :
    s.setNX now key value px = (false, s) := by
  rw [setNX, h, Option.isSome_some, if_pos rfl]

theorem setNX_of_free (h : s.get now key = none) :
    s.setNX now key value px = (true, s.insert key ⟨value, now + px⟩) := by
  rw [setNX, h, Option.isSome_none, if_neg Bool.false_ne_true]

theorem get_eq_some : s.get now key = some id ↔
    ∃ d, s.lookup key = some ⟨id, d⟩ ∧ now ≤ d := by
  simp only [get, Option.map_eq_some_iff, Option.filter_eq_some_iff, decide_eq_true_eq]
  constructor
  · rintro ⟨⟨_, d⟩, ⟨he, hle⟩, rfl⟩
    exact ⟨d, he, hle⟩
  · rintro ⟨d, he, hle⟩
    exact ⟨⟨id, d⟩, ⟨he, hle⟩, rfl⟩

end Redis

/-- The commands of `RedisLocker`. -/
inductive Command
  | setNX (key value : List Char) (px : Nat)
  | unlockScript (key id : List Char)
  | refreshScript (key id : List Char) (px : Nat)

/-- The replies. -/
def Reply : Command → Type
  | .setNX _ _ _ => Except String Bool
  | .unlockScript _ _ => Except String Int
  | .refreshScript _ _ _ => Except String Int

/-- What Redis does with a command. -/
def Redis.exec (now : Nat) : (c : Command) → Redis → Reply c × Redis
  | .setNX key value px, s => let (ok, s') := s.setNX now key value px; (.ok ok, s')
  | .unlockScript key id, s => let (res, s') := s.unlockScript now key id; (.ok res, s')
  | .refreshScript key id px, s => let (res, s') := s.refreshScript now key id px; (.ok res, s')

/-- The reply where the connection fails. -/
def Command.failed (err : String) : (c : Command) → Reply c
  | .setNX _ _ _ => .error err
  | .unlockScript _ _ => .error err
  | .refreshScript _ _ _ => .error err

/-! ## The locker -/

/-- The errors of a locker. -/
inductive LockError
  | held
  | expired
  | setnx (err : String)
  | unlock (err : String)
  | refresh (err : String)
  deriving DecidableEq

def LockError.text : LockError → String
  | .held => "lock already held by another node"
  | .expired => "lock has expired or token is invalid"
  | .setnx err => "redis setnx error: " ++ err
  | .unlock err => "redis unlock script error: " ++ err
  | .refresh err => "redis refresh script error: " ++ err

/-- `RedisToken`; durations are in nanoseconds. -/
structure RedisToken where
  resource : List Char
  id : List Char
  ttl : Nat
  deriving DecidableEq

/-- The key of a resource. -/
def lockKey (resource : List Char) : List Char :=
  ['a', 'e', 'g', 'i', 's', ':', 'l', 'o', 'c', 'k', ':'] ++ resource

theorem lockKey_inj (h : lockKey r = lockKey r') : r = r' :=
  List.append_cancel_left h

/-- The expiry that the client sends with `SET`: whole milliseconds, and at least one. -/
def formatMs (ttl : Nat) : Nat := if ttl < 10 ^ 6 then 1 else ttl / 10 ^ 6

/-- `Milliseconds`. -/
def milliseconds (ttl : Nat) : Nat := ttl / 10 ^ 6

/-- A piece of a program that uses a locker. -/
abbrev Locking (β : Type) : Type := Proc Command Reply β

def setNX (key value : List Char) (px : Nat) : Locking (Except String Bool) :=
  Proc.perform (Command.setNX key value px)

def unlockScript (key id : List Char) : Locking (Except String Int) :=
  Proc.perform (Command.unlockScript key id)

def refreshScript (key id : List Char) (px : Nat) : Locking (Except String Int) :=
  Proc.perform (Command.refreshScript key id px)

/-- `Acquire`, with the id it generates. -/
def acquire (tokenId resource : List Char) (ttl : Nat) : Locking (Except LockError RedisToken) := do
  match ← setNX (lockKey resource) tokenId (formatMs ttl) with
  | .error e => return .error (.setnx e)
  | .ok false => return .error .held
  | .ok true => return .ok ⟨resource, tokenId, ttl⟩

/-- `Release`. -/
def release (token : RedisToken) : Locking (Except LockError Unit) := do
  match ← unlockScript (lockKey token.resource) token.id with
  | .error e => return .error (.unlock e)
  | .ok res => if res = 0 then return .error .expired else return .ok ()

/-- `Refresh`. -/
def refresh (token : RedisToken) (ttl : Nat) : Locking (Except LockError Unit) := do
  match ← refreshScript (lockKey token.resource) token.id (milliseconds ttl) with
  | .error e => return .error (.refresh e)
  | .ok res => if res = 0 then return .error .expired else return .ok ()

/-! ## Calls that Redis answers -/

section
variable {s : Redis} {now ttl : Nat} {tokenId resource : List Char} {token : RedisToken}

theorem acquire_eval : (acquire tokenId resource ttl).eval (Redis.exec now) s =
    if (s.get now (lockKey resource)).isSome then (.error .held, s)
    else (.ok ⟨resource, tokenId, ttl⟩,
      s.insert (lockKey resource) ⟨tokenId, now + formatMs ttl⟩) := by
  have hexec : Redis.exec now (.setNX (lockKey resource) tokenId (formatMs ttl)) s =
      (.ok (s.setNX now (lockKey resource) tokenId (formatMs ttl)).1,
        (s.setNX now (lockKey resource) tokenId (formatMs ttl)).2) := rfl
  refine (Proc.eval_call hexec).trans ?_
  unfold Redis.setNX
  split
  · rfl
  · rfl

theorem release_eval : (release token).eval (Redis.exec now) s =
    if s.get now (lockKey token.resource) = some token.id then
      (.ok (), s.erase (lockKey token.resource))
    else (.error .expired, s) := by
  have hexec : Redis.exec now (.unlockScript (lockKey token.resource) token.id) s =
      (.ok (s.unlockScript now (lockKey token.resource) token.id).1,
        (s.unlockScript now (lockKey token.resource) token.id).2) := rfl
  refine (Proc.eval_call hexec).trans ?_
  unfold Redis.unlockScript
  split
  · rfl
  · rfl

theorem refresh_eval : (refresh token ttl).eval (Redis.exec now) s =
    if s.get now (lockKey token.resource) = some token.id then
      (.ok (), if milliseconds ttl = 0 then s.erase (lockKey token.resource)
        else s.insert (lockKey token.resource) ⟨token.id, now + milliseconds ttl⟩)
    else (.error .expired, s) := by
  have hexec : Redis.exec now
      (.refreshScript (lockKey token.resource) token.id (milliseconds ttl)) s =
      (.ok (s.refreshScript now (lockKey token.resource) token.id (milliseconds ttl)).1,
        (s.refreshScript now (lockKey token.resource) token.id (milliseconds ttl)).2) := rfl
  refine (Proc.eval_call hexec).trans ?_
  unfold Redis.refreshScript
  split
  · rfl
  · rfl

end

end Aegis.Lock
