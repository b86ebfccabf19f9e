import Aegis.Lib.Effect
import Aegis.Lib.Table

/-!
# Consumers of partitioned logs

A topic is a number of partitions, each a log that only grows. The members of a consumer group fetch
messages in the order of a partition, handle one at a time, and commit its offset, which commits all
offsets before it. A member that is assigned a partition starts at the offset that is committed; it
can be assigned another one, or crash, at any time, and two members may even have one partition.

What handling a message is for is a condition `Q` on the world, which stays true as the world grows.
If every message is handled before its offset is committed, then every message below a committed
offset is handled.
-/

namespace Aegis.Consume

/-! ## Groups -/

/-- A member: where it reads each of its partitions, and the message it is handling, with the
partition and offset and the rest of the program. -/
structure Member (C : Type) (A : C → Type) (M : Type) where
  position : Table Nat Nat
  current : Option (M × Nat × Nat × Proc C A Unit)

/-- The committed offsets, and the members. -/
structure Group (C : Type) (A : C → Type) (M : Type) where
  committed : Table Nat Nat
  members : List (Member C A M)

/-- What a member does: it is assigned a partition, fetches a message of it, gets the answer to a
command, commits what it has handled, which can fail, with or without its effect, or crashes. -/
inductive Action (E : Type)
  | assign (i p : Nat)
  | fetch (i p : Nat)
  | answer (i : Nat) (e : E)
  | commit (i : Nat) (applied : Bool)
  | crash (i : Nat)

/-- What a group consumes and how: the partitions of its topic, the program for a message, and what
the world does with a command, as an event decides. -/
structure Consumer (C : Type) (A : C → Type) (W M E : Type) where
  topic : W → Nat → List M
  handle : M → Proc C A Unit
  respond : E → (c : C) → W → A c × W

variable {C : Type} {A : C → Type} {W M E : Type}

namespace Group

/-- The offset below which a partition is committed. -/
def offset (g : Group C A M) (p : Nat) : Nat := (g.committed.lookup p).getD 0

def put (g : Group C A M) (i : Nat) (m : Member C A M) : Group C A M :=
  { g with members := g.members.set i m }

end Group

namespace Consumer

variable (S : Consumer C A W M E)

/-- The next message of a partition. -/
def fetch (w : W) (g : Group C A M) (i p : Nat) : Option (Group C A M) := do
  let m ← g.members[i]?
  let o ← m.position.lookup p
  let msg ← (S.topic w p)[o]?
  if m.current.isSome then none
  else return g.put i ⟨m.position.insert p (o + 1), some (msg, p, o, S.handle msg)⟩

/-- The answer to the command of a member. -/
def answer (w : W) (g : Group C A M) (i : Nat) (e : E) : Option (W × Group C A M) :=
  match g.members[i]? with
  | none => none
  | some m =>
    match m.current with
    | some (msg, p, o, .call c next) =>
      let (a, w') := S.respond e c w
      some (w', g.put i { m with current := some (msg, p, o, next a) })
    | _ => none

/-- A message that has been handled is committed. -/
def commit (g : Group C A M) (i : Nat) (applied : Bool) : Option (Group C A M) :=
  match g.members[i]? with
  | none => none
  | some m =>
    match m.current with
    | some (_, p, o, .ret ()) =>
      let g' := if applied then { g with committed := g.committed.insert p (o + 1) } else g
      some (g'.put i { m with current := none })
    | _ => none

/-- One action of a member, if it is possible. -/
def step (w : W) (g : Group C A M) : Action E → Option (W × Group C A M)
  | .assign i p =>
    g.members[i]?.map fun m => (w, g.put i { m with position := m.position.insert p (g.offset p) })
  | .fetch i p => (S.fetch w g i p).map fun g' => (w, g')
  | .answer i e => S.answer w g i e
  | .commit i applied => (commit g i applied).map fun g' => (w, g')
  | .crash i => g.members[i]?.map fun _ => (w, g.put i ⟨∅, none⟩)

/-- The event of the action, with the command it answers. -/
def answered (g : Group C A M) : Action E → Option (C × E)
  | .answer i e =>
    match g.members[i]? with
    | some ⟨_, some (_, _, _, .call c _)⟩ => some (c, e)
    | _ => none
  | _ => none

/-! ## Handling before committing -/

/-- All messages of a partition below an offset are there, and handled. -/
def Below (Q : W → M → Prop) (w : W) (p o : Nat) : Prop :=
  ∀ o' < o, ∃ msg, (S.topic w p)[o']? = some msg ∧ Q w msg

/-- **The invariant**: everything below a committed offset is handled; so is everything that a
member has read, but for the message it is handling; and that one will be handled when the rest of
its program has run. -/
structure Settled (K : Contract C A W) (Q : W → M → Prop) (w : W) (g : Group C A M) : Prop where
  committed : ∀ p, S.Below Q w p (g.offset p)
  read : ∀ m ∈ g.members, ∀ p o, m.position.lookup p = some o → ∀ o' < o,
    (∃ msg rest, m.current = some (msg, p, o', rest)) ∨
      ∃ msg, (S.topic w p)[o']? = some msg ∧ Q w msg
  busy : ∀ m ∈ g.members, ∀ msg p o rest, m.current = some (msg, p, o, rest) →
    S.Below Q w p o ∧ (S.topic w p)[o]? = some msg ∧ K.Keeps (fun w _ => Q w msg) rest w

/-- What a condition and a contract need: logs only grow, what is handled stays handled, and the
program for a message handles it. -/
structure Lawful (K : Contract C A W) (Q : W → M → Prop) : Prop where
  topic : ∀ {w w'} {p o : Nat} {msg}, K.grows w w' → (S.topic w p)[o]? = some msg →
    (S.topic w' p)[o]? = some msg
  keep : ∀ {w w' msg}, K.grows w w' → Q w msg → Q w' msg
  handle : ∀ w msg, K.Keeps (fun w _ => Q w msg) (S.handle msg) w

/-- An event that answers a command lets the world grow, and the answer is true of it. -/
def Truthful (K : Contract C A W) (w : W) (c : C) (e : E) : Prop :=
  K.grows w (S.respond e c w).2 ∧ K.told (S.respond e c w).2 c (S.respond e c w).1

variable {S} {K : Contract C A W} {Q : W → M → Prop} {w w' : W} {g g' : Group C A M} {i : Nat}

theorem Below.grow (hS : S.Lawful K Q) (hw : K.grows w w') (h : S.Below Q w p o) :
    S.Below Q w' p o := by
  intro o' ho'
  obtain ⟨msg, hmsg, hq⟩ := h o' ho'
  exact ⟨msg, hS.topic hw hmsg, hS.keep hw hq⟩

/-- The world grows. -/
theorem Settled.grow (h : S.Settled K Q w g) (hS : S.Lawful K Q) (hw : K.grows w w') :
    S.Settled K Q w' g where
  committed p := (h.committed p).grow hS hw
  read m hm p o hpos o' ho' := by
    rcases h.read m hm p o hpos o' ho' with hcur | ⟨msg, hmsg, hq⟩
    · exact .inl hcur
    · exact .inr ⟨msg, hS.topic hw hmsg, hS.keep hw hq⟩
  busy m hm msg p o rest hcur := by
    obtain ⟨hbelow, hmsg, hkeeps⟩ := h.busy m hm msg p o rest hcur
    exact ⟨hbelow.grow hS hw, hS.topic hw hmsg, hkeeps.grow hw⟩

/-- A member goes on. -/
theorem Settled.put (h : S.Settled K Q w g) {m : Member C A M}
    (hread : ∀ p o, m.position.lookup p = some o → ∀ o' < o,
      (∃ msg rest, m.current = some (msg, p, o', rest)) ∨
        ∃ msg, (S.topic w p)[o']? = some msg ∧ Q w msg)
    (hbusy : ∀ msg p o rest, m.current = some (msg, p, o, rest) →
      S.Below Q w p o ∧ (S.topic w p)[o]? = some msg ∧ K.Keeps (fun w _ => Q w msg) rest w) :
    S.Settled K Q w (g.put i m) where
  committed := h.committed
  read m' hm' := by
    rcases List.mem_or_eq_of_mem_set hm' with hm' | rfl
    · exact h.read m' hm'
    · exact hread
  busy m' hm' := by
    rcases List.mem_or_eq_of_mem_set hm' with hm' | rfl
    · exact h.busy m' hm'
    · exact hbusy

/-! ## Steps -/

/-- A member that is assigned a partition starts where it is committed. -/
theorem Settled.assign (h : S.Settled K Q w g) (hm : m ∈ g.members) (p : Nat) :
    S.Settled K Q w (g.put i { m with position := m.position.insert p (g.offset p) }) := by
  refine h.put (fun p' o hpos o' ho' => ?_) (h.busy m hm)
  rw [Table.lookup_insert_eq] at hpos
  split at hpos
  · next heq =>
    cases hpos
    rw [heq]
    exact .inr (h.committed p o' ho')
  · exact h.read m hm p' o hpos o' ho'

theorem Settled.fetch (h : S.Settled K Q w g) (hS : S.Lawful K Q)
    (hstep : S.fetch w g i p = some g') : S.Settled K Q w g' := by
  simp only [Consumer.fetch, Option.bind_eq_bind, Option.bind_eq_some_iff] at hstep
  obtain ⟨m, hi, o, ho, msg, hmsg, hstep⟩ := hstep
  have hm := List.mem_of_getElem? hi
  split at hstep
  · cases hstep
  · next hidle =>
    have hnone : m.current = none := Option.not_isSome_iff_eq_none.1 hidle
    cases hstep
    have hread : ∀ p' o, m.position.lookup p' = some o → S.Below Q w p' o := by
      intro p' o hpos o' ho'
      rcases h.read m hm p' o hpos o' ho' with ⟨_, _, hcur⟩ | hq
      · cases hnone.symm.trans hcur
      · exact hq
    refine h.put (fun p' o₁ hpos o' ho' => ?_) fun msg' p' o' rest hcur => ?_
    · rw [Table.lookup_insert_eq] at hpos
      split at hpos
      · next heq =>
        cases hpos
        rw [heq]
        rcases Nat.lt_succ_iff_lt_or_eq.1 ho' with hlt | rfl
        · exact .inr (hread p o ho o' hlt)
        · exact .inl ⟨msg, _, rfl⟩
      · exact .inr (hread p' o₁ hpos o' ho')
    · cases hcur
      exact ⟨hread p o ho, hmsg, hS.handle w msg⟩

/-- What an answer does. -/
theorem answer_cases (hstep : S.answer w g i e = some (w', g')) :
    ∃ m ∈ g.members, ∃ msg p o c next, m.current = some (msg, p, o, .call c next) ∧
      answered g (.answer i e) = some (c, e) ∧ w' = (S.respond e c w).2 ∧
      g' = g.put i { m with current := some (msg, p, o, next (S.respond e c w).1) } := by
  unfold Consumer.answer at hstep
  split at hstep
  · cases hstep
  · next m hi =>
    split at hstep
    · next msg p o c next hcur =>
      cases hstep
      refine ⟨m, List.mem_of_getElem? hi, msg, p, o, c, next, hcur, ?_, rfl, rfl⟩
      obtain ⟨pos, cur⟩ := m
      cases hcur
      rw [answered, hi]
    · cases hstep

theorem Settled.answer (h : S.Settled K Q w g) (hS : S.Lawful K Q)
    (hok : ∀ c, answered g (.answer i e) = some (c, e) → S.Truthful K w c e)
    (hstep : S.answer w g i e = some (w', g')) : S.Settled K Q w' g' := by
  obtain ⟨m, hm, msg, p, o, c, next, hcur, hanswered, rfl, rfl⟩ := answer_cases hstep
  obtain ⟨hgrows, htold⟩ := hok c hanswered
  have h' := h.grow hS hgrows
  refine h'.put (fun p' o₁ hpos o' ho' => ?_) fun msg' p' o' rest hcur' => ?_
  · rcases h'.read m hm p' o₁ hpos o' ho' with ⟨_, _, hcur'⟩ | hq
    · cases hcur.symm.trans hcur'
      exact .inl ⟨msg, _, rfl⟩
    · exact .inr hq
  · cases hcur'
    obtain ⟨hbelow, hmsg, hkeeps⟩ := h.busy m hm msg p o _ hcur
    exact ⟨hbelow.grow hS hgrows, hS.topic hgrows hmsg, (hkeeps _ hgrows).2 _ htold⟩

/-- A message that has been handled is committed, with all messages before it. -/
theorem Settled.commit (h : S.Settled K Q w g) (hstep : Consumer.commit g i applied = some g') :
    S.Settled K Q w g' := by
  unfold Consumer.commit at hstep
  split at hstep
  · cases hstep
  · next m hi =>
    split at hstep
    · next msg p o hcur =>
      have hm := List.mem_of_getElem? hi
      obtain ⟨hbelow, hmsg, hkeeps⟩ := h.busy m hm msg p o _ hcur
      have hq : Q w msg := hkeeps w (K.refl w)
      cases hstep
      have hg : S.Settled K Q w
          (if applied then { g with committed := g.committed.insert p (o + 1) } else g) := by
        split
        · refine ⟨fun p' => ?_, h.read, h.busy⟩
          intro o' ho'
          rw [Group.offset, Table.lookup_insert_eq] at ho'
          split at ho'
          · next heq =>
            rw [heq]
            rcases Nat.lt_succ_iff_lt_or_eq.1 ho' with hlt | rfl
            · exact hbelow o' hlt
            · exact ⟨msg, hmsg, hq⟩
          · exact h.committed p' o' ho'
        · exact h
      refine hg.put (fun p' o₁ hpos o' ho' => ?_) nofun
      rcases h.read m hm p' o₁ hpos o' ho' with ⟨_, _, hcur'⟩ | hq'
      · cases hcur.symm.trans hcur'
        exact .inr ⟨msg, hmsg, hq⟩
      · exact .inr hq'
    · cases hstep

/-- **One action**, if its answer is true. -/
theorem Settled.step (h : S.Settled K Q w g) (hS : S.Lawful K Q)
    (hok : ∀ c e, answered g a = some (c, e) → S.Truthful K w c e)
    (hstep : S.step w g a = some (w', g')) : S.Settled K Q w' g' := by
  cases a with
  | assign i p =>
    obtain ⟨m, hi, heq⟩ := Option.map_eq_some_iff.1 hstep
    cases heq
    exact h.assign (List.mem_of_getElem? hi) p
  | fetch i p =>
    obtain ⟨g'', hg'', heq⟩ := Option.map_eq_some_iff.1 hstep
    cases heq
    exact h.fetch hS hg''
  | answer i e => exact h.answer hS (fun c => hok c e) hstep
  | commit i applied =>
    obtain ⟨g'', hg'', heq⟩ := Option.map_eq_some_iff.1 hstep
    cases heq
    exact h.commit hg''
  | crash i =>
    obtain ⟨m, hi, heq⟩ := Option.map_eq_some_iff.1 hstep
    cases heq
    exact h.put nofun nofun

/-- Members that have read nothing, of a group that has committed nothing. -/
theorem settled_init (w : W) (n : Nat) :
    S.Settled K Q w ⟨∅, List.replicate n ⟨∅, none⟩⟩ where
  committed p o ho := by cases ho
  read m hm p o hpos := by
    rw [List.eq_of_mem_replicate hm] at hpos
    cases hpos
  busy m hm msg p o rest hcur := by
    rw [List.eq_of_mem_replicate hm] at hcur
    cases hcur

/-- A step that answers truthfully lets the world grow. -/
theorem grows_of_step (hok : ∀ c e, answered g a = some (c, e) → S.Truthful K w c e)
    (hstep : S.step w g a = some (w', g')) : K.grows w w' := by
  have hsame : ∀ {α : Type} {o : Option α} {f : α → Group C A M},
      (o.map fun x => (w, f x)) = some (w', g') → K.grows w w' := by
    intro α o f hmap
    obtain ⟨x, -, heq⟩ := Option.map_eq_some_iff.1 hmap
    cases heq
    exact K.refl w
  cases a with
  | assign i p => exact hsame hstep
  | fetch i p => exact hsame hstep
  | answer i e =>
    obtain ⟨-, -, -, -, -, c, -, -, hanswered, rfl, -⟩ := answer_cases hstep
    exact (hok c e hanswered).1
  | commit i applied => exact hsame hstep
  | crash i => exact hsame hstep

end Consumer

end Aegis.Consume
