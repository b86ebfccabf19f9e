import Mathlib.Tactic

/-!
# Symbolic messages

Messages as terms in which a MAC is an injective constructor of its key and its message, and what an
attacker can make of the terms they have seen (`Knows`): take pairs apart, build pairs, write any
text, and compute MACs with keys they know. Everything known is built from parts of what was seen
(`Synth`), so a MAC under an unknown key is a part of something seen.
-/

namespace Aegis.Symbolic

/-- Messages over keys `K` and texts `T`. -/
inductive Term (K T : Type) : Type
  | text (t : T)
  | key (k : K)
  | pair (a b : Term K T)
  | mac (k m : Term K T)
  deriving DecidableEq

variable {K T : Type}

/-- What follows from having seen the terms in `S`. -/
inductive Knows (S : Term K T → Prop) : Term K T → Prop
  | seen {t : Term K T} : S t → Knows S t
  | text (t : T) : Knows S (.text t)
  | pair {a b : Term K T} : Knows S a → Knows S b → Knows S (.pair a b)
  | fst {a b : Term K T} : Knows S (.pair a b) → Knows S a
  | snd {a b : Term K T} : Knows S (.pair a b) → Knows S b
  | mac {k m : Term K T} : Knows S k → Knows S m → Knows S (.mac k m)

/-- What pairs come apart into. -/
inductive Part (S : Term K T → Prop) : Term K T → Prop
  | seen {t : Term K T} : S t → Part S t
  | fst {a b : Term K T} : Part S (.pair a b) → Part S a
  | snd {a b : Term K T} : Part S (.pair a b) → Part S b

/-- What can be built from parts. -/
inductive Synth (S : Term K T → Prop) : Term K T → Prop
  | part {t : Term K T} : Part S t → Synth S t
  | text (t : T) : Synth S (.text t)
  | pair {a b : Term K T} : Synth S a → Synth S b → Synth S (.pair a b)
  | mac {k m : Term K T} : Synth S k → Synth S m → Synth S (.mac k m)

variable {S : Term K T → Prop}

/-- **Taking apart comes first**: what is known is built from parts. -/
theorem Knows.synth (h : Knows S t) : Synth S t := by
  induction h with
  | seen ht => exact .part (.seen ht)
  | text t => exact .text t
  | pair _ _ iha ihb => exact .pair iha ihb
  | fst _ ih =>
    cases ih with
    | part hp => exact .part hp.fst
    | pair ha _ => exact ha
  | snd _ ih =>
    cases ih with
    | part hp => exact .part hp.snd
    | pair _ hb => exact hb
  | mac _ _ ihk ihm => exact .mac ihk ihm

/-- A MAC under a key that was never sent was itself sent. -/
theorem Knows.part_of_mac (hk : ¬ Part S (.key k)) (h : Knows S (.mac (.key k) m)) :
    Part S (.mac (.key k) m) := by
  cases h.synth with
  | part hp => exact hp
  | mac hkey _ =>
    cases hkey with
    | part hp => exact absurd hp hk

end Aegis.Symbolic
