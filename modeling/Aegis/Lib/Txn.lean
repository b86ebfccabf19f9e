import Aegis.Lib.Run

/-!
# Transactions over a shared database with locks held to the end

A transaction is a program of atomic steps. A step sees the database as it is committed at that
moment with the transaction's own writes on top (READ COMMITTED), may have to wait for locks, may
take locks, may write, and chooses how to go on by what it saw. Locks are kept until the
transaction ends. Nothing a transaction writes is seen by another one before it commits, and a
transaction that raises or is aborted leaves nothing behind.

`Prog` is the type of such programs, `Sys.step` the executable small-step semantics of any number
of them together, and `Prog.alone` runs one of them with nobody else around.

What a transaction holds need not be waited for by anybody: a step that takes a lock without
waiting for it only leaves a mark. A run is *clear* (`Sys.Clear`) when no step takes anything that
conflicts with what another transaction holds; a step that waits for all it takes is clear whenever
it can be taken.
-/

namespace Aegis

/-- What a transaction can hold, with the pairs that two transactions may not hold together. -/
class Lock (L : Type) where
  conflicts : L → L → Bool
  symm : ∀ a b, conflicts a b = conflicts b a

namespace Txn

/-- A transaction program over the database `Db`. A step's four functions all read the view the
step runs on: what it waits for, what it takes, what it writes and how it goes on. -/
inductive Prog (Db L Err β : Type) : Type
  | ret (b : β)
  | raise (e : Err)
  | step (waits takes : Db → List L) (write : Db → Db → Db) (next : Db → Prog Db L Err β)

namespace Prog

variable {Db L Err α β : Type}

/-- Sequencing: the second program starts where the first returns. -/
def bind : Prog Db L Err α → (α → Prog Db L Err β) → Prog Db L Err β
  | ret a, f => f a
  | raise e, _ => raise e
  | step waits takes write next, f => step waits takes write fun v => (next v).bind f

instance : Monad (Prog Db L Err) where
  pure := ret
  bind := bind

/-- One step that returns the view it ran on. -/
def stmt (waits takes : Db → List L) (write : Db → Db → Db) : Prog Db L Err Db :=
  step waits takes write ret

/-- Read the current view. -/
def read : Prog Db L Err Db := stmt (fun _ => []) (fun _ => []) (fun _ d => d)

/-- Wait for locks, take them, and read the view under them. -/
def acquire (locks : Db → List L) : Prog Db L Err Db := stmt locks locks (fun _ d => d)

/-- Raise `e` unless `c` holds. -/
def check (c : Bool) (e : Err) : Prog Db L Err Unit := if c then ret () else raise e

/-- Run `f` on every element in turn. -/
def forEach : List α → (α → Prog Db L Err Unit) → Prog Db L Err Unit
  | [], _ => ret ()
  | a :: l, f => (f a).bind fun _ => forEach l f

/-- Run `f` on every element in turn and collect the results there are. -/
def collect : List α → (α → Prog Db L Err (Option β)) → Prog Db L Err (List β)
  | [], _ => ret []
  | a :: l, f => (f a).bind fun o => (collect l f).bind fun bs => ret (o.toList ++ bs)

/-- Run a program on `d` with no other transaction around: its result and the database it leaves,
or the error it raises. -/
def alone : Prog Db L Err β → Db → Except Err (β × Db)
  | ret b, d => .ok (b, d)
  | raise e, _ => .error e
  | step _ _ write next, d => (next d).alone (write d d)

@[simp] theorem pure_eq (a : α) : (pure a : Prog Db L Err α) = ret a := rfl

@[simp] theorem bind_eq (p : Prog Db L Err α) (f : α → Prog Db L Err β) : p >>= f = p.bind f := rfl

@[simp] theorem bind_ret (a : α) (f : α → Prog Db L Err β) : (ret a).bind f = f a := rfl

@[simp] theorem bind_step (waits takes : Db → List L) (write : Db → Db → Db)
    (next : Db → Prog Db L Err α) (f : α → Prog Db L Err β) :
    (step waits takes write next).bind f = step waits takes write fun v => (next v).bind f := rfl

/-! ## Running alone -/

@[simp] theorem alone_ret (b : β) (d : Db) : (ret b : Prog Db L Err β).alone d = .ok (b, d) := rfl

@[simp] theorem alone_stmt (waits takes : Db → List L) (write : Db → Db → Db) (d : Db) :
    (stmt waits takes write : Prog Db L Err Db).alone d = .ok (d, write d d) := rfl

@[simp] theorem alone_acquire (locks : Db → List L) (d : Db) :
    (acquire locks : Prog Db L Err Db).alone d = .ok (d, d) := rfl

@[simp] theorem alone_check (c : Bool) (e : Err) (d : Db) :
    (check c e : Prog Db L Err Unit).alone d = if c then .ok ((), d) else .error e := by
  cases c <;> rfl

/-- A sequence run alone runs its first part, then its second on the database that leaves. -/
theorem alone_bind (p : Prog Db L Err α) (f : α → Prog Db L Err β) (d : Db) :
    (p.bind f).alone d =
      match p.alone d with
      | .ok (a, d') => (f a).alone d'
      | .error e => .error e := by
  induction p generalizing d with
  | ret a => rfl
  | raise e => rfl
  | step waits takes write next ih => exact ih d (write d d)

variable {b : β} {d d' : Db} {e : Err} {c : Bool} {l : List α} {f : α → Prog Db L Err Unit}

/-- A sequence that succeeds alone has a first part that does. -/
theorem alone_bind_ok {p : Prog Db L Err α} {f : α → Prog Db L Err β}
    (h : (p.bind f).alone d = .ok (b, d')) :
    ∃ a d₁, p.alone d = .ok (a, d₁) ∧ (f a).alone d₁ = .ok (b, d') := by
  rw [alone_bind] at h
  cases hp : p.alone d with
  | error e => simp [hp] at h
  | ok r =>
    obtain ⟨a, d₁⟩ := r
    exact ⟨a, d₁, rfl, by simpa [hp] using h⟩

theorem alone_stmt_bind (waits takes : Db → List L) (write : Db → Db → Db)
    (f : Db → Prog Db L Err β) (d : Db) :
    ((stmt waits takes write).bind f).alone d = (f d).alone (write d d) := rfl

theorem alone_read_bind (f : Db → Prog Db L Err β) (d : Db) :
    (read.bind f).alone d = (f d).alone d := rfl

theorem alone_check_bind (c : Bool) (e : Err) (f : Unit → Prog Db L Err β) (d : Db) :
    ((check c e).bind f).alone d = if c then (f ()).alone d else .error e := by
  cases c with
  | false => rfl
  | true => rfl

theorem alone_bind_of_ok {p : Prog Db L Err α} {f : α → Prog Db L Err β} {a : α}
    (h : p.alone d = .ok (a, d')) : (p.bind f).alone d = (f a).alone d' := by
  rw [alone_bind, h]

theorem alone_bind_of_error {p : Prog Db L Err α} {f : α → Prog Db L Err β}
    (h : p.alone d = .error e) : (p.bind f).alone d = .error e := by
  rw [alone_bind, h]

/-- A loop whose rounds change nothing. -/
theorem alone_forEach (h : ∀ a ∈ l, (f a).alone d = .ok ((), d)) :
    (forEach l f).alone d = .ok ((), d) := by
  induction l with
  | nil => rfl
  | cons a l ih =>
    rw [forEach, alone_bind_of_ok (h a List.mem_cons_self)]
    exact ih fun b hb => h b (List.mem_cons_of_mem a hb)

/-- A loop with an invariant of what is left: it succeeds if every element has `P`, and raises an
error otherwise. -/
theorem alone_forEach_cases {I : List α → Db → Prop} {P : α → Prop}
    (hok : ∀ a l d, I (a :: l) d → P a → ∃ d', (f a).alone d = .ok ((), d') ∧ I l d')
    (hnot : ∀ a l d, I (a :: l) d → ¬ P a → ∃ e, (f a).alone d = .error e) (h : I l d) :
    ((∀ a ∈ l, P a) ∧ ∃ d', (forEach l f).alone d = .ok ((), d') ∧ I [] d') ∨
      (¬ ∀ a ∈ l, P a) ∧ ∃ e, (forEach l f).alone d = .error e := by
  induction l generalizing d with
  | nil => exact .inl ⟨by simp, d, rfl, h⟩
  | cons a l ih =>
    rw [forEach, List.forall_mem_cons]
    by_cases ha : P a
    · obtain ⟨d₁, ha', hI⟩ := hok a l d h ha
      rw [alone_bind_of_ok ha']
      rcases ih hI with ⟨hall, hd'⟩ | ⟨hall, he⟩
      · exact .inl ⟨⟨ha, hall⟩, hd'⟩
      · exact .inr ⟨fun hboth => hall hboth.2, he⟩
    · obtain ⟨e, he⟩ := hnot a l d h ha
      exact .inr ⟨fun hboth => ha hboth.1, e, alone_bind_of_error he⟩

/-- A loop with an invariant of what is left: it succeeds, with a result for every element, if every
element has `P`, and raises one of the errors `Q` otherwise. -/
theorem alone_collect {f : α → Prog Db L Err (Option β)} {I : List α → Db → Prop} {P : α → Prop}
    {Q : Err → Prop}
    (hok : ∀ a l d, I (a :: l) d → P a → ∃ b d', (f a).alone d = .ok (some b, d') ∧ I l d')
    (hnot : ∀ a l d, I (a :: l) d → ¬ P a → ∃ e, (f a).alone d = .error e ∧ Q e) (h : I l d) :
    ((∀ a ∈ l, P a) ∧ ∃ bs d', (collect l f).alone d = .ok (bs, d') ∧ bs.length = l.length ∧
        I [] d') ∨
      (¬ ∀ a ∈ l, P a) ∧ ∃ e, (collect l f).alone d = .error e ∧ Q e := by
  induction l generalizing d with
  | nil => exact .inl ⟨by simp, [], d, rfl, rfl, h⟩
  | cons a l ih =>
    rw [collect, List.forall_mem_cons]
    by_cases ha : P a
    · obtain ⟨b, d₁, hb, hI⟩ := hok a l d h ha
      rw [alone_bind_of_ok hb]
      rcases ih hI with ⟨hall, bs, d', hbs, hlen, hI'⟩ | ⟨hall, e, he, hQ⟩
      · refine .inl ⟨⟨ha, hall⟩, b :: bs, d', ?_, by rw [List.length_cons, hlen]; rfl, hI'⟩
        rw [alone_bind_of_ok hbs]
        rfl
      · exact .inr ⟨fun hboth => hall hboth.2, e, alone_bind_of_error he, hQ⟩
    · obtain ⟨e, he, hQ⟩ := hnot a l d h ha
      exact .inr ⟨fun hboth => ha hboth.1, e, alone_bind_of_error he, hQ⟩

/-- What follows a check that passes. -/
theorem alone_check_bind_ok {f : Unit → Prog Db L Err β} {r : β × Db}
    (h : ((check c e).bind f).alone d = .ok r) : c = true ∧ (f ()).alone d = .ok r := by
  cases c with
  | false => cases h
  | true => exact ⟨rfl, h⟩

@[simp] theorem alone_ite (c : Prop) [Decidable c] (p q : Prog Db L Err β) (d : Db) :
    (if c then p else q).alone d = if c then p.alone d else q.alone d := by
  split <;> rfl

/-! ## What a program raises -/

/-- Every error the program can raise, whatever views its steps run on, is one of `E`. -/
def Raises (E : Err → Prop) : Prog Db L Err β → Prop
  | ret _ => True
  | raise e => E e
  | step _ _ _ next => ∀ v, (next v).Raises E

variable {takes waits : Db → List L} {write : Db → Db → Db} {p q : Prog Db L Err β}

namespace Raises

variable {E : Err → Prop}

theorem ret : (ret b : Prog Db L Err β).Raises E := trivial

theorem bind {p : Prog Db L Err α} {f : α → Prog Db L Err β} (hp : p.Raises E)
    (hf : ∀ a, (f a).Raises E) : (p.bind f).Raises E := by
  induction p with
  | ret a => exact hf a
  | raise e => exact hp
  | step waits takes write next ih => exact fun v => ih v (hp v)

theorem stmt : (stmt waits takes write : Prog Db L Err Db).Raises E :=
  fun _ => trivial

theorem check (h : E e) : (check c e : Prog Db L Err Unit).Raises E := by
  cases c with
  | false => exact h
  | true => exact ret

theorem ite {c : Prop} [Decidable c] (hp : p.Raises E) (hq : q.Raises E) :
    (if c then p else q).Raises E := by
  split
  · exact hp
  · exact hq

theorem forEach (hf : ∀ a, (f a).Raises E) (l : List α) : (forEach l f).Raises E := by
  induction l with
  | nil => exact ret
  | cons a l ih => exact (hf a).bind fun _ => ih

theorem collect {f : α → Prog Db L Err (Option β)} (hf : ∀ a, (f a).Raises E) (l : List α) :
    (collect l f).Raises E := by
  induction l with
  | nil => exact ret
  | cons a l ih => exact (hf a).bind fun _ => ih.bind fun _ => ret

/-- An error of a program run alone is one it can raise. -/
theorem alone (h : p.Raises E) (he : p.alone d = .error e) : E e := by
  induction p generalizing d with
  | ret b => cases he
  | raise e' =>
    cases he
    exact h
  | step waits takes write next ih => exact ih d (h d) he

end Raises

/-! ## What a program writes -/

/-- Every write of the program, whatever view its step runs on, changes the database within `R`. -/
def Within (R : Db → Db → Prop) : Prog Db L Err β → Prop
  | ret _ => True
  | raise _ => True
  | step _ _ write next => ∀ v, (∀ d, R d (write v d)) ∧ (next v).Within R

namespace Within

variable {R : Db → Db → Prop}

theorem ret : (ret b : Prog Db L Err β).Within R := trivial

theorem raise : (raise e : Prog Db L Err β).Within R := trivial

theorem bind {p : Prog Db L Err α} {f : α → Prog Db L Err β} (hp : p.Within R)
    (hf : ∀ a, (f a).Within R) : (p.bind f).Within R := by
  induction p with
  | ret a => exact hf a
  | raise e => exact raise
  | step waits takes write next ih => exact fun v => ⟨(hp v).1, ih v (hp v).2⟩

theorem stmt (h : ∀ v d, R d (write v d)) : (stmt waits takes write : Prog Db L Err Db).Within R :=
  fun v => ⟨h v, trivial⟩

theorem check : (check c e : Prog Db L Err Unit).Within R := by
  cases c with
  | false => exact raise
  | true => exact ret

theorem ite {c : Prop} [Decidable c] (hp : c → p.Within R) (hq : ¬ c → q.Within R) :
    (if c then p else q).Within R := by
  split
  · next hc => exact hp hc
  · next hc => exact hq hc

theorem forEach_mem (hf : ∀ a ∈ l, (f a).Within R) : (forEach l f).Within R := by
  induction l with
  | nil => exact ret
  | cons a l ih =>
    exact (hf a List.mem_cons_self).bind fun _ => ih fun b hb => hf b (List.mem_cons_of_mem a hb)

theorem forEach (hf : ∀ a, (f a).Within R) (l : List α) : (forEach l f).Within R :=
  forEach_mem fun a _ => hf a

theorem collect {f : α → Prog Db L Err (Option β)} (hf : ∀ a, (f a).Within R) (l : List α) :
    (collect l f).Within R := by
  induction l with
  | nil => exact ret
  | cons a l ih => exact (hf a).bind fun _ => ih.bind fun _ => ret

section Refl

variable (hrefl : ∀ d, R d d)
include hrefl

theorem read : (read : Prog Db L Err Db).Within R := stmt fun _ => hrefl

theorem acquire : (acquire locks : Prog Db L Err Db).Within R :=
  stmt fun _ => hrefl

/-- A program run alone changes the database by its writes, one after the other. -/
theorem alone (htrans : ∀ {a b c}, R a b → R b c → R a c) (h : p.Within R)
    {d d' : Db} (hp : p.alone d = .ok (b, d')) : R d d' := by
  induction p generalizing d with
  | ret a =>
    cases hp
    exact hrefl _
  | raise e => cases hp
  | step waits takes write next ih => exact htrans ((h d).1 d) (ih d (h d).2 hp)

end Refl

end Within

/-- Every step waits for what it takes, and writes by one of the functions `W`. -/
def Uses (W : (Db → Db) → Prop) : Prog Db L Err β → Prop
  | ret _ => True
  | raise _ => True
  | step waits takes write next => ∀ v, takes v ⊆ waits v ∧ W (write v) ∧ (next v).Uses W

namespace Uses

variable {W : (Db → Db) → Prop}

theorem ret : (ret b : Prog Db L Err β).Uses W := trivial

theorem raise : (raise e : Prog Db L Err β).Uses W := trivial

theorem bind {p : Prog Db L Err α} {f : α → Prog Db L Err β} (hp : p.Uses W)
    (hf : ∀ a, (f a).Uses W) : (p.bind f).Uses W := by
  induction p with
  | ret a => exact hf a
  | raise e => exact raise
  | step waits takes write next ih =>
    exact fun v => ⟨(hp v).1, (hp v).2.1, ih v (hp v).2.2⟩

theorem stmt (hw : ∀ v, takes v ⊆ waits v) (h : ∀ v, W (write v)) :
    (stmt waits takes write : Prog Db L Err Db).Uses W :=
  fun v => ⟨hw v, h v, trivial⟩

theorem check : (check c e : Prog Db L Err Unit).Uses W := by
  cases c with
  | false => exact raise
  | true => exact ret

theorem ite {c : Prop} [Decidable c] (hp : c → p.Uses W) (hq : ¬ c → q.Uses W) :
    (if c then p else q).Uses W := by
  split
  · next hc => exact hp hc
  · next hc => exact hq hc

theorem forEach (hf : ∀ a ∈ l, (f a).Uses W) : (forEach l f).Uses W := by
  induction l with
  | nil => exact ret
  | cons a l ih =>
    exact (hf a List.mem_cons_self).bind fun _ => ih fun b hb => hf b (List.mem_cons_of_mem a hb)

theorem collect {f : α → Prog Db L Err (Option β)} (hf : ∀ a ∈ l, (f a).Uses W) :
    (collect l f).Uses W := by
  induction l with
  | nil => exact ret
  | cons a l ih =>
    have htail := ih fun b hb => hf b (List.mem_cons_of_mem a hb)
    exact (hf a List.mem_cons_self).bind fun _ => htail.bind fun _ => ret

theorem mono (hp : p.Uses W) (h : ∀ f, W f → W' f) : p.Uses W' := by
  induction p with
  | ret b => exact ret
  | raise e => exact raise
  | step waits takes write next ih =>
    exact fun v => ⟨(hp v).1, h _ (hp v).2.1, ih v (hp v).2.2⟩

/-- A relation that admits each of the functions bounds what the program writes. -/
theorem within (hp : p.Uses W) (h : ∀ f, W f → ∀ d, R d (f d)) : p.Within R := by
  induction p with
  | ret b => exact Within.ret
  | raise e => exact Within.raise
  | step waits takes write next ih => exact fun v => ⟨h _ (hp v).2.1, ih v (hp v).2.2⟩

section Id

variable (hid : W id)
include hid

theorem read : (read : Prog Db L Err Db).Uses W := stmt (fun _ => List.Subset.refl _) fun _ => hid

theorem acquire : (acquire locks : Prog Db L Err Db).Uses W :=
  stmt (fun _ => List.Subset.refl _) fun _ => hid

end Id

end Uses

/-! ## Marks -/

/-- The program without its marks: a step takes only what it also waits for. -/
def unmarked [DecidableEq L] : Prog Db L Err β → Prog Db L Err β
  | ret b => ret b
  | raise e => raise e
  | step waits takes write next =>
    step waits (fun v => (takes v).filter (· ∈ waits v)) write fun v => (next v).unmarked

theorem unmarked_bind [DecidableEq L] (p : Prog Db L Err α) (f : α → Prog Db L Err β) :
    (p.bind f).unmarked = p.unmarked.bind fun a => (f a).unmarked := by
  induction p with
  | ret a => rfl
  | raise e => rfl
  | step waits takes write next ih =>
    rw [bind_step, unmarked, unmarked, bind_step]
    simp only [ih]

namespace Uses

variable [DecidableEq L] {W : (Db → Db) → Prop}

/-- A program that waits for what it takes has no marks. -/
theorem unmarked_eq (hp : p.Uses W) : p.unmarked = p := by
  induction p with
  | ret b => rfl
  | raise e => rfl
  | step waits takes write next ih =>
    rw [unmarked]
    congr 1
    · funext v
      exact List.filter_eq_self.2 fun l hl => decide_eq_true ((hp v).1 hl)
    · funext v
      exact ih v (hp v).2.2

theorem unmarked (hp : p.Uses W) : p.unmarked.Uses W := by
  rwa [hp.unmarked_eq]

theorem unmarked_stmt (h : ∀ v, W (write v)) :
    (Prog.stmt waits takes write : Prog Db L Err Db).unmarked.Uses W := by
  refine fun v => ⟨fun l hl => ?_, h v, trivial⟩
  simpa using (List.mem_filter.1 hl).2

end Uses

end Prog

/-! ## The pool of transactions -/

/-- How far a transaction is. -/
inductive Phase (Db L Err Res : Type) : Type
  | running (p : Prog Db L Err Res)
  | committed (r : Res)
  | aborted
  | failed (e : Err)

/-- The transaction has committed or left no trace. -/
def Phase.isOver {Db L Err Res : Type} : Phase Db L Err Res → Bool
  | .running _ => false
  | _ => true

/-- One transaction: the call it serves, what it holds, its writes so far as a change to the
committed database, and its phase. -/
structure Tx (Db L Err Call Res : Type) where
  call : Call
  held : List L
  eff : Db → Db
  phase : Phase Db L Err Res

/-- The record of a commit: which transaction, the call, the result, and the change made. -/
structure Commit (Db Call Res : Type) where
  id : Nat
  call : Call
  res : Res
  eff : Db → Db

/-- What has been committed: the database, and the commits in order. -/
structure World (Db Call Res : Type) where
  db : Db
  journal : List (Commit Db Call Res)

/-- The committed world and every transaction ever started. -/
structure Sys (Db L Err Call Res : Type) where
  world : World Db Call Res
  txns : List (Tx Db L Err Call Res)

/-- What can happen next: a call starts a transaction, a transaction takes a step, commits once its
program has returned, or is aborted (a deadlock, a timeout, a lost client). -/
inductive Action (Call : Type) : Type
  | start (c : Call)
  | exec (i : Nat)
  | commit (i : Nat)
  | abort (i : Nat)

/-- The world after transaction `i` commits. -/
def World.commit {Db Call Res : Type} (w : World Db Call Res) (i : Nat) (c : Call) (r : Res)
    (eff : Db → Db) : World Db Call Res where
  db := eff w.db
  journal := w.journal ++ [⟨i, c, r, eff⟩]

namespace Sys

variable {Db L Err Call Res : Type} [Lock L]

/-- Nothing started yet. -/
def init (d : Db) : Sys Db L Err Call Res := ⟨⟨d, []⟩, []⟩

/-- Replace transaction `i`. -/
def put (s : Sys Db L Err Call Res) (i : Nat) (t : Tx Db L Err Call Res) :
    Sys Db L Err Call Res :=
  { s with txns := s.txns.set i t }

/-- No transaction other than `i` holds anything that conflicts with one of `ls`. -/
def free (s : Sys Db L Err Call Res) (i : Nat) (ls : List L) : Bool :=
  s.txns.zipIdx.all fun (t, j) =>
    j == i || t.held.all fun m => ls.all fun l => !Lock.conflicts m l

/-- One action, if it is possible: a step whose locks are not free is not taken. -/
def step (body : Call → Prog Db L Err Res) (s : Sys Db L Err Call Res) :
    Action Call → Option (Sys Db L Err Call Res)
  | .start c => some { s with txns := s.txns ++ [⟨c, [], id, .running (body c)⟩] }
  | .exec i =>
    match s.txns[i]? with
    | some ⟨c, _, _, .running (.raise e)⟩ => some (s.put i ⟨c, [], id, .failed e⟩)
    | some ⟨c, held, eff, .running (.step waits takes write next)⟩ =>
      let v := eff s.world.db
      if s.free i (waits v) then
        some (s.put i ⟨c, takes v ++ held, fun d => write v (eff d), .running (next v)⟩)
      else none
    | _ => none
  | .commit i =>
    match s.txns[i]? with
    | some ⟨c, _, eff, .running (.ret r)⟩ =>
      some { s.put i ⟨c, [], eff, .committed r⟩ with world := s.world.commit i c r eff }
    | _ => none
  | .abort i =>
    match s.txns[i]? with
    | some ⟨c, _, _, .running _⟩ => some (s.put i ⟨c, [], id, .aborted⟩)
    | _ => none

/-- A whole run. -/
abbrev run (body : Call → Prog Db L Err Res) :
    Sys Db L Err Call Res → List (Action Call) → Option (Sys Db L Err Call Res) :=
  Run.run fun s a => s.step body a

/-- The step about to be taken takes nothing that conflicts with what another transaction
holds. -/
def clear (s : Sys Db L Err Call Res) : Action Call → Bool
  | .exec i =>
    match s.txns[i]? with
    | some ⟨_, _, eff, .running (.step _ takes _ _)⟩ => s.free i (takes (eff s.world.db))
    | _ => true
  | _ => true

/-- Every step of the run is clear in the state it is taken in. -/
abbrev Clear (body : Call → Prog Db L Err Res) :
    Sys Db L Err Call Res → List (Action Call) → Prop :=
  Run.Throughout (fun s a => s.step body a) fun s a => s.clear a = true

variable {body : Call → Prog Db L Err Res} {s s' : Sys Db L Err Call Res} {a : Action Call}
  {d : Db} {i : Nat}

omit [Lock L] in
theorem getElem?_put :
    (s.put i t).txns[j]? = if i = j ∧ j < s.txns.length then some t else s.txns[j]? := by
  simp only [put, List.getElem?_set]
  by_cases hij : i = j
  · subst hij
    by_cases hlt : i < s.txns.length
    · simp [hlt]
    · simp [hlt]
  · simp [hij]

/-- `free` as a statement about every other transaction. -/
theorem free_iff :
    s.free i ls = true ↔
      ∀ j t, s.txns[j]? = some t → j ≠ i →
        ∀ m ∈ t.held, ∀ l ∈ ls, Lock.conflicts m l = false := by
  simp only [free, List.all_eq_true, Prod.forall, List.mem_zipIdx_iff_getElem?, Bool.or_eq_true,
    beq_iff_eq, Bool.not_eq_true']
  constructor
  · intro h j t hj hne m hm l hl
    exact (h t j hj).resolve_left hne m hm l hl
  · intro h t j hj
    rcases eq_or_ne j i with rfl | hne
    · exact .inl rfl
    · exact .inr (h j t hj hne)

/-! ## What an action can do -/

omit [Lock L] in
/-- A transaction found after a start is an old one or the one started. -/
theorem getElem?_start (h : (l ++ [x])[j]? = some t) : l[j]? = some t ∨ j = l.length ∧ t = x := by
  rcases Nat.lt_or_ge j l.length with hlt | hge
  · exact .inl (by rwa [List.getElem?_append_left hlt] at h)
  · rw [List.getElem?_append_right hge, List.getElem?_singleton] at h
    split at h
    · next h0 =>
      cases h
      exact .inr ⟨by omega, rfl⟩
    · cases h

section
variable {Φ : Nat → Tx Db L Err Call Res → Prop} {t : Tx Db L Err Call Res}

omit [Lock L] in
/-- What is true of every transaction stays true if it is of one that replaces another. -/
theorem forall_put (h : ∀ j u, s.txns[j]? = some u → Φ j u) (ht : Φ i t) :
    ∀ j u, (s.put i t).txns[j]? = some u → Φ j u := by
  intro j u hj
  rw [getElem?_put] at hj
  split at hj
  · next hij =>
    cases hj
    exact hij.1 ▸ ht
  · exact h j u hj

omit [Lock L] in
/-- What is true of every transaction stays true if it is of one that starts. -/
theorem forall_start (h : ∀ j u, s.txns[j]? = some u → Φ j u) (ht : Φ s.txns.length t) :
    ∀ j u, (s.txns ++ [t])[j]? = some u → Φ j u := by
  intro j u hj
  rcases getElem?_start hj with hj | ⟨rfl, rfl⟩
  · exact h j u hj
  · exact ht

end

/-- What two transactions hold is in the relation `R`. -/
def Apart (R : L → L → Prop) (s : Sys Db L Err Call Res) : Prop :=
  ∀ {i j : Nat} {t u : Tx Db L Err Call Res}, s.txns[i]? = some t → s.txns[j]? = some u → i ≠ j →
    ∀ a ∈ t.held, ∀ b ∈ u.held, R a b

section
variable {R : L → L → Prop}

omit [Lock L] in
theorem Apart.put (hsymm : ∀ {a b}, R a b → R b a) (h : Apart R s)
    (hheld : ∀ (j : Nat) (u : Tx Db L Err Call Res),
      s.txns[j]? = some u → j ≠ i → ∀ a ∈ t.held, ∀ b ∈ u.held, R a b) : Apart R (s.put i t) := by
  intro j k u v hj hk hjk a ha b hb
  rw [getElem?_put] at hj hk
  split at hj
  · next hij =>
    cases hj
    obtain ⟨rfl, -⟩ := hij
    rw [if_neg (by rintro ⟨h, -⟩; exact hjk h)] at hk
    exact hheld k v hk (Ne.symm hjk) a ha b hb
  · split at hk
    · next hik =>
      cases hk
      obtain ⟨rfl, -⟩ := hik
      exact hsymm (hheld j u hj hjk b hb a ha)
    · exact h hj hk hjk a ha b hb

omit [Lock L] in
/-- A transaction that starts holds nothing. -/
theorem Apart.start (h : Apart R s) (c : Call) (eff : Db → Db) (phase : Phase Db L Err Res) :
    Apart R { s with txns := s.txns ++ [⟨c, [], eff, phase⟩] } := by
  intro j k t u hj hk hjk a ha b hb
  rcases getElem?_start hj with hj | ⟨-, rfl⟩
  · rcases getElem?_start hk with hk | ⟨-, rfl⟩
    · exact h hj hk hjk a ha b hb
    · cases hb
  · cases ha

end

/-- What one action does, by cases: every fact about runs is proved from this. -/
inductive Does (body : Call → Prog Db L Err Res) (s : Sys Db L Err Call Res) :
    Action Call → Sys Db L Err Call Res → Prop
  | start (c : Call) :
      Does body s (.start c) { s with txns := s.txns ++ [⟨c, [], id, .running (body c)⟩] }
  | raise {i : Nat} {c : Call} {held : List L} {eff : Db → Db} {e : Err} :
      s.txns[i]? = some ⟨c, held, eff, .running (.raise e)⟩ →
      Does body s (.exec i) (s.put i ⟨c, [], id, .failed e⟩)
  | step {i : Nat} {c : Call} {held : List L} {eff : Db → Db} {waits takes : Db → List L}
      {write : Db → Db → Db} {next : Db → Prog Db L Err Res} :
      s.txns[i]? = some ⟨c, held, eff, .running (.step waits takes write next)⟩ →
      s.free i (waits (eff s.world.db)) = true →
      Does body s (.exec i) (s.put i ⟨c, takes (eff s.world.db) ++ held,
        fun d => write (eff s.world.db) (eff d), .running (next (eff s.world.db))⟩)
  | commit {i : Nat} {c : Call} {held : List L} {eff : Db → Db} {r : Res} :
      s.txns[i]? = some ⟨c, held, eff, .running (.ret r)⟩ →
      Does body s (.commit i)
        { s.put i ⟨c, [], eff, .committed r⟩ with world := s.world.commit i c r eff }
  | abort {i : Nat} {c : Call} {held : List L} {eff : Db → Db} {p : Prog Db L Err Res} :
      s.txns[i]? = some ⟨c, held, eff, .running p⟩ →
      Does body s (.abort i) (s.put i ⟨c, [], id, .aborted⟩)

/-- An action that is taken does one of these. -/
theorem does_of_step (h : s.step body a = some s') : Does body s a s' := by
  cases a with
  | start c =>
    cases h
    exact .start c
  | exec i =>
    simp only [step] at h
    split at h
    · next hi =>
      cases h
      exact .raise hi
    · next hi =>
      split at h
      · next hf =>
        cases h
        exact .step hi hf
      · cases h
    · cases h
  | commit i =>
    simp only [step] at h
    split at h
    · next hi =>
      cases h
      exact .commit hi
    · cases h
  | abort i =>
    simp only [step] at h
    split at h
    · next hi =>
      cases h
      exact .abort hi
    · cases h

/-- The committed database changes only when a transaction that has returned commits. -/
theorem Does.db_eq (h : Does body s a s') : s'.world.db = s.world.db ∨
      ∃ i c held eff r, a = .commit i ∧ s.txns[i]? = some ⟨c, held, eff, .running (.ret r)⟩ ∧
        s'.world.db = eff s.world.db := by
  cases h with
  | start c => exact .inl rfl
  | raise hi => exact .inl rfl
  | step hi hf => exact .inl rfl
  | commit hi => exact .inr ⟨_, _, _, _, _, rfl, hi, rfl⟩
  | abort hi => exact .inl rfl

/-- A transaction found after an action was there with its call, running if it runs, or has just
started. -/
theorem Does.call_of (h : Does body s a s') (hi : s'.txns[i]? = some t) :
    (∃ t₀, s.txns[i]? = some t₀ ∧ t₀.call = t.call ∧
      ∀ p, t.phase = .running p → ∃ p₀, t₀.phase = .running p₀) ∨ a = .start t.call := by
  have hput : ∀ {k : Nat} {u u' : Tx Db L Err Call Res}, s.txns[k]? = some u →
      (s.put k u').txns[i]? = some t → u'.call = u.call → (∃ p, u.phase = .running p) →
      ∃ t₀, s.txns[i]? = some t₀ ∧ t₀.call = t.call ∧
        ∀ p, t.phase = .running p → ∃ p₀, t₀.phase = .running p₀ := by
    intro k u u' hk hi' hcall hrun
    rw [getElem?_put] at hi'
    split at hi'
    · next hki =>
      cases hi'
      exact ⟨u, hki.1 ▸ hk, hcall.symm, fun _ _ => hrun⟩
    · exact ⟨t, hi', rfl, fun p hp => ⟨p, hp⟩⟩
  cases h with
  | start c =>
    rcases getElem?_start hi with hi | ⟨-, rfl⟩
    · exact .inl ⟨t, hi, rfl, fun p hp => ⟨p, hp⟩⟩
    · exact .inr rfl
  | raise hk => exact .inl (hput hk hi rfl ⟨_, rfl⟩)
  | step hk hf => exact .inl (hput hk hi rfl ⟨_, rfl⟩)
  | commit hk => exact .inl (hput hk hi rfl ⟨_, rfl⟩)
  | abort hk => exact .inl (hput hk hi rfl ⟨_, rfl⟩)

/-- A transaction stays in its place and serves the same call. -/
theorem Does.call_eq (h : Does body s a s') (hi : s.txns[i]? = some t) :
    ∃ t', s'.txns[i]? = some t' ∧ t'.call = t.call := by
  have hput : ∀ {k : Nat} {u u' : Tx Db L Err Call Res}, s.txns[k]? = some u → u'.call = u.call →
      ∃ t', (s.put k u').txns[i]? = some t' ∧ t'.call = t.call := by
    intro k u u' hk hcall
    rw [getElem?_put]
    split
    · next hki =>
      obtain rfl := Option.some.inj ((hki.1 ▸ hk).symm.trans hi)
      exact ⟨u', rfl, hcall⟩
    · exact ⟨t, hi, rfl⟩
  cases h with
  | start c => exact ⟨t, by rw [List.getElem?_append_left (List.getElem?_eq_some_iff.1 hi).1, hi],
    rfl⟩
  | raise hk => exact hput hk rfl
  | step hk hf => exact hput hk rfl
  | commit hk => exact hput hk rfl
  | abort hk => exact hput hk rfl

variable {as : List (Action Call)}

/-- What holds at the start and is kept by every step holds after every run. -/
theorem run_induction {I : Sys Db L Err Call Res → Prop}
    (hstep : ∀ {s a s'}, I s → Does body s a s' → I s') (h0 : I s) (hr : s.run body as = some s') :
    I s' :=
  Run.invariant (fun hI hs => hstep hI (does_of_step hs)) h0 hr

/-- What holds at the start and is kept by every clear step holds after every clear run. -/
theorem clear_run_induction {I : Sys Db L Err Call Res → Prop}
    (hstep : ∀ {s a s'}, I s → s.clear a = true → Does body s a s' → I s') (h0 : I s)
    (hc : Clear body s as) (hr : s.run body as = some s') : I s' :=
  hc.run_induction (fun hI ha hs => hstep hI ha (does_of_step hs)) h0 hr

/-! ## What the journal says -/

/-- Every transaction that has committed is in the journal. -/
def Recorded (s : Sys Db L Err Call Res) : Prop :=
  ∀ (i : Nat) (t : Tx Db L Err Call Res) (r : Res), s.txns[i]? = some t → t.phase = .committed r →
    ∃ c ∈ s.world.journal, c.call = t.call

omit [Lock L] in
theorem recorded_init (d : Db) : Recorded (init d : Sys Db L Err Call Res) := by
  intro i t r hi
  simp [init] at hi

/-- Every action keeps the journal complete. -/
theorem Recorded.does (h : Recorded s) (hd : Does body s a s') : Recorded s' := by
  have hput : ∀ {k : Nat} {u : Tx Db L Err Call Res}, (∀ r, u.phase ≠ .committed r) →
      Recorded (s.put k u) := by
    intro k u hu j t r hj
    exact forall_put (fun j t hj r => h j t r hj) (fun r hr => absurd hr (hu r)) j t hj r
  cases hd with
  | start c =>
    intro j t r hj
    exact forall_start (fun j t hj r => h j t r hj) (fun r hr => by cases hr) j t hj r
  | raise hi => exact hput nofun
  | step hi hf => exact hput nofun
  | @commit i c held eff r hi =>
    intro j t r' hj ht
    simp only [getElem?_put] at hj
    split at hj
    · cases hj
      exact ⟨_, List.mem_append_right _ (List.mem_singleton_self _), rfl⟩
    · obtain ⟨e, he, hcall⟩ := h j t r' hj ht
      exact ⟨e, List.mem_append_left _ he, hcall⟩
  | abort hi => exact hput nofun

/-- The committed database is what the commits in the journal made of `d`, one after the other, and
each of them is the commit of a transaction that has committed. -/
structure Journaled (d : Db) (s : Sys Db L Err Call Res) : Prop where
  db_eq : s.world.db = s.world.journal.foldl (fun d c => c.eff d) d
  committed : ∀ c ∈ s.world.journal, ∃ t : Tx Db L Err Call Res, s.txns[c.id]? = some t ∧
    t.call = c.call ∧ t.phase = .committed c.res

omit [Lock L] in
/-- Replacing a transaction that has not committed leaves the journal true. -/
theorem Journaled.put (h : Journaled d s) (hi : s.txns[i]? = some t)
    (ht : ∀ r, t.phase ≠ .committed r) (u : Tx Db L Err Call Res) : Journaled d (s.put i u) := by
  refine ⟨h.db_eq, fun c hc => ?_⟩
  obtain ⟨t', ht', hcall, hphase⟩ := h.committed c hc
  refine ⟨t', ?_, hcall, hphase⟩
  rw [getElem?_put, if_neg, ht']
  rintro ⟨rfl, -⟩
  obtain rfl := Option.some.inj (hi.symm.trans ht')
  exact ht _ hphase

/-- The journal is true after every run: what failed or was aborted has left nothing behind. -/
theorem journaled (hr : (init d).run body as = some s) : Journaled d s := by
  refine run_induction (I := Journaled d) ?_ ⟨rfl, by simp [init]⟩ hr
  intro s a s' h hd
  cases hd with
  | start c =>
    refine ⟨h.db_eq, fun c' hc' => ?_⟩
    obtain ⟨u, hu, hcall, hphase⟩ := h.committed c' hc'
    exact ⟨u, List.getElem?_append_left (List.getElem?_eq_some_iff.1 hu).1 ▸ hu, hcall, hphase⟩
  | raise hi => exact h.put hi (by intro r hp; cases hp) _
  | step hi _ => exact h.put hi (by intro r hp; cases hp) _
  | abort hi => exact h.put hi (by intro r hp; cases hp) _
  | @commit i c held eff r hi =>
    have hput := h.put hi (by intro r hp; cases hp) ⟨c, [], eff, .committed r⟩
    refine ⟨by simp [World.commit, h.db_eq], fun c' hc' => ?_⟩
    rcases List.mem_append.1 hc' with hc' | hc'
    · exact hput.committed c' hc'
    · obtain rfl := List.mem_singleton.1 hc'
      refine ⟨⟨c, [], eff, .committed r⟩, ?_, rfl, rfl⟩
      show (s.put i _).txns[i]? = _
      rw [getElem?_put, if_pos ⟨rfl, (List.getElem?_eq_some_iff.1 hi).1⟩]

/-! ## What transactions write -/

/-- The writes of every transaction, done and to come, are within the relation of its call. -/
def Bounded (R : Call → Db → Db → Prop) (s : Sys Db L Err Call Res) : Prop :=
  ∀ (i : Nat) (t : Tx Db L Err Call Res), s.txns[i]? = some t →
    (∀ d, R t.call d (t.eff d)) ∧ ∀ p, t.phase = .running p → p.Within (R t.call)

section Bounded

variable {R : Call → Db → Db → Prop}

omit [Lock L] in
theorem bounded_init (d : Db) : Bounded R (init d : Sys Db L Err Call Res) := by
  intro i t hi
  simp [init] at hi

/-- Every action keeps the writes within bounds. -/
theorem Bounded.does (hrefl : ∀ c d, R c d d) (htrans : ∀ {c a b d}, R c a b → R c b d → R c a d)
    (hbody : ∀ c, (body c).Within (R c)) (h : Bounded R s) (hd : Does body s a s') :
    Bounded R s' := by
  cases hd with
  | start c =>
    refine forall_start h ⟨hrefl c, fun p hp => ?_⟩
    cases hp
    exact hbody c
  | raise hi => exact forall_put h ⟨hrefl _, nofun⟩
  | step hi _ =>
    obtain ⟨heff, hprog⟩ := h _ _ hi
    obtain ⟨hwrite, hnext⟩ := hprog _ rfl _
    refine forall_put h ⟨fun d => htrans (heff d) (hwrite _), fun p hp => ?_⟩
    cases hp
    exact hnext
  | commit hi => exact forall_put h ⟨(h _ _ hi).1, nofun⟩
  | abort hi => exact forall_put h ⟨hrefl _, nofun⟩

end Bounded

end Sys

end Txn

end Aegis
