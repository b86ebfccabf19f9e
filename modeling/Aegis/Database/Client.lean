import Aegis.Database.Breaker

/-!
# The routing of statements

The part of `DatabaseClient` (internal/database/client.go and failover.go) that decides where a
statement goes: `pickPool`, which `QueryWithMetrics` asks by way of `queryRouted`, and `acquire`,
which `ExecWithMetrics` asks. A class of operations is a text. One that is not among the four of
config.go has no pool, so its statements are refused before they are sent (`pickPool_unknown`,
`acquire_unknown`).

That a pool may have no connection to give is left to the callers, whose calls may fail anyway.
-/

namespace Aegis.Database

/-- `OpClass`. -/
abbrev OpClass : Type := String

def opWrite : OpClass := "write"

def opRead : OpClass := "read"

def opMetadata : OpClass := "metadata"

def opAnalytical : OpClass := "analytical"

/-- The pools of a client. -/
inductive Pool
  | writePool
  | metadata
  | analyticalPool
  | readPool (i : Nat)

/-- Why there is no pool for a statement. -/
inductive RouteErr
  | errPrimaryUnavailable
  | unknownOpClass (cls : OpClass)

/-- What routing reads: the breaker, the number of read pools, and the round-robin cursor. -/
structure DatabaseClient where
  breaker : CircuitBreaker
  readPools : Nat
  readRR : Nat

namespace DatabaseClient

/-- `nextReplica`, where there are read pools. The cursor is a `uint64`. -/
def nextReplica (c : DatabaseClient) : Pool × DatabaseClient :=
  (.readPool (c.readRR % c.readPools), { c with readRR := (c.readRR + 1) % 2 ^ 64 })

def readTarget (c : DatabaseClient) (now : Time) : Option Pool × DatabaseClient :=
  if 0 < c.readPools then (c.nextReplica).map some id
  else
    let (allowed, breaker) := c.breaker.allow now
    (if allowed then some .writePool else none, { c with breaker := breaker })

def pickPool (c : DatabaseClient) (now : Time) (cls : OpClass) : Option Pool × DatabaseClient :=
  if cls = opWrite then (some .writePool, c)
  else if cls = opMetadata then (some .metadata, c)
  else if cls = opAnalytical then (some .analyticalPool, c)
  else if cls = opRead then c.readTarget now
  else (none, c)

/-- `acquire` up to the pool it asks for a connection. Unlike `pickPool` it asks the breaker before
a write. -/
def acquire (c : DatabaseClient) (now : Time) (cls : OpClass) :
    Except RouteErr Pool × DatabaseClient :=
  if cls = opWrite then
    let (allowed, breaker) := c.breaker.allow now
    (if allowed then .ok .writePool else .error .errPrimaryUnavailable,
      { c with breaker := breaker })
  else if cls = opMetadata then (.ok .metadata, c)
  else if cls = opAnalytical then (.ok .analyticalPool, c)
  else if cls = opRead then
    let (target, c') := c.readTarget now
    (match target with
      | some pool => .ok pool
      | none => .error .errPrimaryUnavailable, c')
  else (.error (.unknownOpClass cls), c)

variable {cls : OpClass} (hcls : cls ∉ [opWrite, opRead, opMetadata, opAnalytical])

include hcls

/-- No query of an unknown class is sent. -/
theorem pickPool_unknown (c : DatabaseClient) (now : Time) : c.pickPool now cls = (none, c) := by
  simp only [List.mem_cons, List.not_mem_nil, or_false, not_or] at hcls
  obtain ⟨hwrite, hread, hmetadata, hanalytical⟩ := hcls
  rw [pickPool, if_neg hwrite, if_neg hmetadata, if_neg hanalytical, if_neg hread]

/-- No other statement of an unknown class is sent. -/
theorem acquire_unknown (c : DatabaseClient) (now : Time) :
    c.acquire now cls = (.error (.unknownOpClass cls), c) := by
  simp only [List.mem_cons, List.not_mem_nil, or_false, not_or] at hcls
  obtain ⟨hwrite, hread, hmetadata, hanalytical⟩ := hcls
  rw [acquire, if_neg hwrite, if_neg hmetadata, if_neg hanalytical, if_neg hread]

end DatabaseClient

end Aegis.Database
