import Aegis.Db.Schema
import Aegis.Lib.Run

/-!
# The circuit breaker of the primary

`CircuitBreaker` of internal/database/failover.go, one call after the other, beside the machine that
docs/connection-pooling.md describes: three consecutive failures open it, two seconds later one
probe is let through, and the probe's result closes it or opens it again. The breaker leaves the
machine at two calls. `RecordFailure` opens a closed breaker only, so a failed probe leaves it
half-open, where nothing is let through any more; and `RecordSuccess` closes the breaker whatever
its state, so a late success ends the cooldown. Up to such a call the two give the same answers and
show the same state.

The hook `onTrip` is left out. Times are in nanoseconds.
-/

namespace Aegis.Database

/-- `breakerState`. -/
inductive BreakerState
  | breakerClosed
  | breakerOpen
  | breakerHalfOpen
  deriving DecidableEq

def BreakerState.string : BreakerState → String
  | .breakerOpen => "open"
  | .breakerHalfOpen => "half-open"
  | .breakerClosed => "closed"

def breakerFailureThreshold : Int := 3

def breakerCooldown : Time := 2 * 10 ^ 9

structure CircuitBreaker where
  state : BreakerState
  failures : Int
  openedAt : Time
  probing : Bool
  deriving DecidableEq

def newCircuitBreaker : CircuitBreaker := ⟨.breakerClosed, 0, 0, false⟩

namespace CircuitBreaker

def allow (cb : CircuitBreaker) (now : Time) : Bool × CircuitBreaker :=
  match cb.state with
  | .breakerClosed => (true, cb)
  | .breakerOpen =>
    if now - cb.openedAt < breakerCooldown then (false, cb)
    else if cb.probing then (false, cb)
    else (true, { cb with probing := true, state := .breakerHalfOpen })
  | .breakerHalfOpen => (false, cb)

def recordSuccess (cb : CircuitBreaker) : CircuitBreaker :=
  { cb with failures := 0, probing := false, state := .breakerClosed }

/-- The counter is an `int32`. -/
def recordFailure (cb : CircuitBreaker) (now : Time) : CircuitBreaker :=
  let n := (cb.failures + 1).bmod (2 ^ 32)
  if n ≥ breakerFailureThreshold ∧ cb.state = .breakerClosed then
    { cb with failures := n, state := .breakerOpen, openedAt := now }
  else { cb with failures := n }

end CircuitBreaker

/-- A call of the breaker. -/
inductive BreakerCall
  | allow
  | recordSuccess
  | recordFailure

/-- What the call answers, and the breaker after it. -/
def CircuitBreaker.call (cb : CircuitBreaker) : Time × BreakerCall → Option Bool × CircuitBreaker
  | (now, .allow) => (some (cb.allow now).1, (cb.allow now).2)
  | (_, .recordSuccess) => (none, cb.recordSuccess)
  | (now, .recordFailure) => (none, cb.recordFailure now)

/-- A call as the step of a run. -/
def CircuitBreaker.step (cb : CircuitBreaker) (c : Time × BreakerCall) : Option CircuitBreaker :=
  some (cb.call c).2

/-! ## The documented machine -/

/-- Closed after so many consecutive failures, open since a time, or waiting for its probe. -/
inductive Documented
  | closed (streak : Nat)
  | opened (since : Time)
  | probing

namespace Documented

def state : Documented → BreakerState
  | closed _ => .breakerClosed
  | opened _ => .breakerOpen
  | probing => .breakerHalfOpen

/-- Results that arrive while the machine is open say nothing about the probe to come. -/
def call : Documented → Time × BreakerCall → Option Bool × Documented
  | closed n, (_, .allow) => (some true, closed n)
  | closed _, (_, .recordSuccess) => (none, closed 0)
  | closed n, (now, .recordFailure) => (none, if n = 2 then opened now else closed (n + 1))
  | opened t, (now, .allow) =>
    if now - t < breakerCooldown then (some false, opened t) else (some true, probing)
  | opened t, _ => (none, opened t)
  | probing, (_, .allow) => (some false, probing)
  | probing, (_, .recordSuccess) => (none, closed 0)
  | probing, (now, .recordFailure) => (none, opened now)

end Documented

/-- What the callers see: the answers, and after each call the state that `State` shows. -/
def observed {S : Type} (call : S → Time × BreakerCall → Option Bool × S)
    (state : S → BreakerState) : S → List (Time × BreakerCall) → List (Option Bool × String)
  | _, [] => []
  | s, c :: cs => ((call s c).1, (state (call s c).2).string) :: observed call state (call s c).2 cs

/-! ## Where the two agree -/

/-- **The condition**: no success is recorded while the breaker is open, and no failure while it
waits for its probe. -/
def CircuitBreaker.Plain (cb : CircuitBreaker) : Time × BreakerCall → Prop
  | (_, .allow) => True
  | (_, .recordSuccess) => cb.state ≠ .breakerOpen
  | (_, .recordFailure) => cb.state ≠ .breakerHalfOpen

/-- The breaker stands for a state of the machine. -/
inductive Stands : CircuitBreaker → Documented → Prop
  | closed {n : Nat} {t : Time} (h : n < 3) : Stands ⟨.breakerClosed, n, t, false⟩ (.closed n)
  | opened {n : Int} {t : Time} : Stands ⟨.breakerOpen, n, t, false⟩ (.opened t)
  | probing {n : Int} {t : Time} : Stands ⟨.breakerHalfOpen, n, t, true⟩ .probing

variable {cb : CircuitBreaker} {m : Documented} {c : Time × BreakerCall}

/-- While the breaker is not closed, a failure changes the counter only. -/
theorem recordFailure_of_ne (h : cb.state ≠ .breakerClosed) (now : Time) :
    cb.recordFailure now = { cb with failures := (cb.failures + 1).bmod (2 ^ 32) } :=
  if_neg fun hn => h hn.2

theorem Stands.state (h : Stands cb m) : cb.state = m.state := by
  cases h <;> rfl

/-- Calls that meet the condition are answered alike and keep the correspondence. -/
theorem Stands.call (h : Stands cb m) (hc : cb.Plain c) :
    (cb.call c).1 = (m.call c).1 ∧ Stands (cb.call c).2 (m.call c).2 := by
  obtain ⟨now, c⟩ := c
  cases h with
  | @closed n t hn =>
    cases c with
    | allow => exact ⟨rfl, .closed hn⟩
    | recordSuccess => exact ⟨rfl, .closed (by decide)⟩
    | recordFailure =>
      refine ⟨rfl, ?_⟩
      -- the counter is far from its bound
      interval_cases n
      · exact .closed (by decide)
      · exact .closed (by decide)
      · exact .opened
  | @opened n t =>
    cases c with
    | allow =>
      simp only [CircuitBreaker.call, CircuitBreaker.allow, Documented.call]
      split
      · exact ⟨rfl, .opened⟩
      · exact ⟨rfl, .probing⟩
    | recordSuccess => exact absurd rfl hc
    | recordFailure =>
      rw [CircuitBreaker.call, recordFailure_of_ne (by nofun)]
      exact ⟨rfl, .opened⟩
  | probing =>
    cases c with
    | allow => exact ⟨rfl, .probing⟩
    | recordSuccess => exact ⟨rfl, .closed (by decide)⟩
    | recordFailure => exact absurd rfl hc

/-- The other calls show different states. -/
theorem Stands.call_ne (h : Stands cb m) (hc : ¬ cb.Plain c) :
    (cb.call c).2.state.string ≠ (m.call c).2.state.string := by
  obtain ⟨now, c⟩ := c
  cases c with
  | allow => exact absurd trivial hc
  | recordSuccess =>
    cases h with
    | opened => exact ne_of_beq_false rfl
    | _ => exact absurd nofun hc
  | recordFailure =>
    cases h with
    | probing =>
      rw [CircuitBreaker.call, recordFailure_of_ne (by nofun)]
      exact ne_of_beq_false rfl
    | _ => exact absurd nofun hc

/-- From corresponding states on. -/
theorem Stands.observed_iff (h : Stands cb m) (calls : List (Time × BreakerCall)) :
    observed CircuitBreaker.call CircuitBreaker.state cb calls =
        observed Documented.call Documented.state m calls ↔
      Run.Throughout CircuitBreaker.step CircuitBreaker.Plain cb calls := by
  induction calls generalizing cb m with
  | nil => exact ⟨fun _ => trivial, fun _ => rfl⟩
  | cons c calls ih =>
    by_cases hc : cb.Plain c
    · obtain ⟨hanswer, hnext⟩ := h.call hc
      rw [observed, observed, hanswer, hnext.state, List.cons_inj_right, ih hnext]
      exact ⟨fun hrest => ⟨hc, fun _ hs => by cases hs; exact hrest⟩, fun hall => hall.2 _ rfl⟩
    · refine ⟨fun heq => ?_, fun hall => absurd hall.1 hc⟩
      rw [observed, observed, List.cons.injEq, Prod.mk.injEq] at heq
      exact absurd heq.1.2 (h.call_ne hc)

/-- **The breaker follows its documentation** exactly as long as no success is recorded while it is
open and no failure while it is half-open. -/
theorem breaker_documented_iff (calls : List (Time × BreakerCall)) :
    observed CircuitBreaker.call CircuitBreaker.state newCircuitBreaker calls =
        observed Documented.call Documented.state (.closed 0) calls ↔
      Run.Throughout CircuitBreaker.step CircuitBreaker.Plain newCircuitBreaker calls :=
  Stands.observed_iff (.closed (by decide)) calls

/-- Three failures at 0, a probe after the cooldown that fails, and a call an hour later. -/
def failedProbe : List (Time × BreakerCall) :=
  List.replicate 3 (0, .recordFailure) ++
    [(2 * 10 ^ 9, .allow), (2 * 10 ^ 9, .recordFailure), (3600 * 10 ^ 9, .allow)]

/-- **A failed probe is the last**: the breaker stays half-open and lets nothing through, where the
machine opens again and probes. -/
theorem failedProbe_stuck :
    (observed CircuitBreaker.call CircuitBreaker.state newCircuitBreaker failedProbe).drop 4 =
        [(none, "half-open"), (some false, "half-open")] ∧
      (observed Documented.call Documented.state (.closed 0) failedProbe).drop 4 =
        [(none, "open"), (some true, "half-open")] := by
  decide

end Aegis.Database
