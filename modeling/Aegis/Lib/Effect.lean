import Mathlib.Tactic

/-!
# Programs that act on an environment

A program issues commands one after the other and goes on with the answers (`Proc`). The
environment decides the answers, so a property of a program is a property of every answer at every
command (`Always`). The second half is about programs that check before they act: what a program
can act on before it checks again (`Armed`), and that it acts only on what its last check confirmed
(`Guarded`). A piece of a program that does not check at all is `Confined` to what it acts on.

The last part is about programs in a world that grows while they run: a `Contract` says which
commands a program may issue in a world and what an answer given there tells of it, and `Keeps` that
a program meets the contract and returns only where a condition holds.
-/

namespace Aegis

/-- A program over commands `C`, where a command `c` is answered by an `A c`. -/
inductive Proc (C : Type) (A : C → Type) (β : Type) : Type
  | ret (b : β)
  | call (c : C) (next : A c → Proc C A β)

namespace Proc

variable {C : Type} {A : C → Type} {α β σ : Type}

/-- Sequencing. -/
def bind : Proc C A α → (α → Proc C A β) → Proc C A β
  | ret a, f => f a
  | call c next, f => call c fun a => (next a).bind f

instance : Monad (Proc C A) where
  pure := ret
  bind := bind

/-- One command. -/
def perform (c : C) : Proc C A (A c) := call c ret

/-- Run `f` on every element in turn, passing a state along. -/
def foldEach (f : σ → α → Proc C A σ) : List α → σ → Proc C A σ
  | [], s => ret s
  | a :: l, s => (f s a).bind fun s' => foldEach f l s'

/-- Run `f` on every element in turn. -/
def forEach (f : α → Proc C A Unit) : List α → Proc C A Unit
  | [] => ret ()
  | a :: l => (f a).bind fun _ => forEach f l

@[simp] theorem pure_eq (a : α) : (pure a : Proc C A α) = ret a := rfl

@[simp] theorem bind_eq (p : Proc C A α) (f : α → Proc C A β) : p >>= f = p.bind f := rfl

@[simp] theorem bind_ret (a : α) (f : α → Proc C A β) : (ret a : Proc C A α).bind f = f a := rfl

@[simp] theorem bind_call (c : C) (next : A c → Proc C A α) (f : α → Proc C A β) :
    (call c next).bind f = call c fun a => (next a).bind f := rfl

/-! ## Results -/

/-- The result of a program whose commands are answered one after the other by `h`. -/
def eval (h : (c : C) → σ → A c × σ) : Proc C A β → σ → β × σ
  | ret b, s => (b, s)
  | call c next, s => (next (h c s).1).eval h (h c s).2

/-- The answer to the first command. -/
theorem eval_call {h : (c : C) → σ → A c × σ} {next : A c → Proc C A β} (ha : h c s = (a, s')) :
    (call c next).eval h s = (next a).eval h s' := by
  rw [eval, ha]

/-- Whatever the answers, the result satisfies `Q`. -/
def Always (Q : β → Prop) : Proc C A β → Prop
  | ret b => Q b
  | call _ next => ∀ a, (next a).Always Q

variable {P : C → Prop} {Q : β → Prop} {c : C} {next : A c → Proc C A β} {p : Proc C A β}
  {f : α → Proc C A β}

theorem Always.mono {P : β → Prop} (hp : p.Always P) (h : ∀ b, P b → Q b) : p.Always Q := by
  induction p with
  | ret b => exact h b hp
  | call c next ih => exact fun a => ih a (hp a)

theorem Always.of_forall (h : ∀ b, Q b) : p.Always Q := by
  induction p with
  | ret b => exact h b
  | call c next ih => exact fun a => ih a

theorem Always.eval (hp : p.Always Q) (h : (c : C) → σ → A c × σ) (s : σ) : Q (p.eval h s).1 := by
  induction p generalizing s with
  | ret b => exact hp
  | call c next ih => exact ih _ (hp _) _

/-- Whatever the answers, the program issues only commands that satisfy `P`. -/
def Issues (P : C → Prop) : Proc C A β → Prop
  | ret _ => True
  | call c next => P c ∧ ∀ a, (next a).Issues P

theorem Issues.bind {p : Proc C A α} (hp : p.Issues P) (hf : ∀ a, (f a).Issues P) :
    (p.bind f).Issues P := by
  induction p with
  | ret a => exact hf a
  | call c next ih => exact ⟨hp.1, fun a => ih a (hp.2 a)⟩

theorem Issues.foldEach {f : σ → α → Proc C A σ} (hf : ∀ s a, (f s a).Issues P) (l : List α)
    (s : σ) : (foldEach f l s).Issues P := by
  induction l generalizing s with
  | nil => trivial
  | cons a l ih => exact (hf s a).bind fun s' => ih s'

/-- What every command that is issued keeps, the program keeps. -/
theorem Issues.eval {I : σ → Prop} (hp : p.Issues P) (hI : ∀ c s, P c → I s → I (h c s).2)
    (hs : I s) : I (p.eval h s).2 := by
  induction p generalizing s with
  | ret b => exact hs
  | call c next ih => exact ih _ (hp.2 _) (hI c s hp.1 hs)

end Proc

/-! ## Traces -/

namespace Proc

variable {C : Type} {A : C → Type} {α β : Type}

/-- A command and its answer. -/
abbrev Event (C : Type) (A : C → Type) : Type := (c : C) × A c

/-- The program can issue these commands with these answers, and then return `b`. -/
inductive Traces : Proc C A β → List (Event C A) → β → Prop
  | ret (b : β) : Traces (.ret b) [] b
  | call {c : C} {next : A c → Proc C A β} {t : List (Event C A)} {b : β} (a : A c) :
    Traces (next a) t b → Traces (.call c next) (⟨c, a⟩ :: t) b

theorem Traces.of_bind {p : Proc C A α} (h : (p.bind f).Traces t b) :
    ∃ t₁ a t₂, t = t₁ ++ t₂ ∧ p.Traces t₁ a ∧ (f a).Traces t₂ b := by
  induction p generalizing t with
  | ret a => exact ⟨[], a, t, rfl, .ret a, h⟩
  | call c next ih =>
    cases h with
    | call a h =>
      obtain ⟨t₁, b, t₂, rfl, h₁, h₂⟩ := ih a h
      exact ⟨_, b, t₂, rfl, .call a h₁, h₂⟩

end Proc

/-! ## Checking before acting -/

/-- Which commands check, which act on a key, and which keys an answer confirms. -/
structure Discipline (C : Type) (A : C → Type) (K : Type) where
  asks : C → Prop
  acts : C → K → Prop
  confirms : (c : C) → A c → K → Prop

namespace Discipline

open Proc

variable {C : Type} {A : C → Type} {K α β σ : Type} (D : Discipline C A K) {k : K}

/-- The program can act on `k` before it checks again. -/
inductive Armed (k : K) : Proc C A β → Prop
  | now {c : C} {next : A c → Proc C A β} : D.acts c k → Armed k (.call c next)
  | later {c : C} {next : A c → Proc C A β} (a : A c) :
      ¬ D.asks c → Armed k (next a) → Armed k (.call c next)

/-- After every check the program is armed only for keys that the answer confirms. -/
def Guarded : Proc C A β → Prop
  | .ret _ => True
  | .call c next =>
    ∀ a, Guarded (next a) ∧ (D.asks c → ∀ k, D.Armed k (next a) → D.confirms c a k)

/-- The program does not check, and acts within `S`. -/
def Confined (S : K → Prop) : Proc C A β → Prop
  | .ret _ => True
  | .call c next => ¬ D.asks c ∧ (∀ k, D.acts c k → S k) ∧ ∀ a, Confined S (next a)

variable {D} {c : C} {next : A c → Proc C A β} {p : Proc C A β} {f : α → Proc C A β}

@[simp] theorem armed_ret : ¬ D.Armed k (.ret b : Proc C A β) := nofun

theorem armed_call :
    D.Armed k (.call c next) ↔ D.acts c k ∨ ¬ D.asks c ∧ ∃ a, D.Armed k (next a) := by
  constructor
  · intro h
    cases h with
    | now hc => exact .inl hc
    | later a hc ha => exact .inr ⟨hc, a, ha⟩
  · intro h
    rcases h with hc | ⟨hc, a, ha⟩
    · exact .now hc
    · exact .later a hc ha

/-- A sequence is armed by its first part or by its second. -/
theorem Armed.of_bind {p : Proc C A α} (h : D.Armed k (p.bind f)) :
    D.Armed k p ∨ ∃ a, D.Armed k (f a) := by
  induction p with
  | ret a => exact .inr ⟨a, h⟩
  | call c next ih =>
    rcases armed_call.1 h with hc | ⟨hc, a, ha⟩
    · exact .inl (.now hc)
    · rcases ih a ha with ha | hf
      · exact .inl (.later a hc ha)
      · exact .inr hf

/-- A check, and what is done with its answer. -/
theorem Guarded.ask (hnext : ∀ a, D.Guarded (next a))
    (hc : ∀ a k, D.Armed k (next a) → D.confirms c a k) : D.Guarded (.call c next) :=
  fun a => ⟨hnext a, fun _ k hk => hc a k hk⟩

theorem Guarded.pass (hask : ¬ D.asks c) (hnext : ∀ a, D.Guarded (next a)) :
    D.Guarded (.call c next) :=
  fun a => ⟨hnext a, fun hc => absurd hc hask⟩

/-- A guarded program followed by one that checks before it acts. -/
theorem Guarded.bind {p : Proc C A α} (hp : D.Guarded p) (hf : ∀ a, D.Guarded (f a))
    (hu : ∀ a k, ¬ D.Armed k (f a)) : D.Guarded (p.bind f) := by
  induction p with
  | ret a => exact hf a
  | call c next ih =>
    intro a
    refine ⟨ih a (hp a).1, fun hc k hk => ?_⟩
    rcases hk.of_bind with hk | ⟨b, hk⟩
    · exact (hp a).2 hc k hk
    · exact absurd hk (hu b k)

/-- The program checks before it acts on anything. -/
structure Careful (D : Discipline C A K) (p : Proc C A β) : Prop where
  guarded : D.Guarded p
  unarmed : ∀ k, ¬ D.Armed k p

theorem Careful.ret : D.Careful (.ret b) := ⟨trivial, fun _ => armed_ret⟩

theorem Careful.ask (hask : D.asks c) (hact : ∀ k, ¬ D.acts c k)
    (hnext : ∀ a, D.Guarded (next a)) (hc : ∀ a k, D.Armed k (next a) → D.confirms c a k) :
    D.Careful (.call c next) :=
  ⟨Guarded.ask hnext hc, fun k h => (armed_call.1 h).elim (hact k) fun hc => hc.1 hask⟩

theorem Careful.pass (hask : ¬ D.asks c) (hact : ∀ k, ¬ D.acts c k)
    (hnext : ∀ a, D.Careful (next a)) : D.Careful (.call c next) := by
  refine ⟨Guarded.pass hask fun a => (hnext a).guarded, fun k hk => ?_⟩
  rw [armed_call, or_iff_right (hact k), and_iff_right hask] at hk
  obtain ⟨a, ha⟩ := hk
  exact (hnext a).unarmed k ha

theorem Careful.bind {p : Proc C A α} (hp : D.Careful p) (hf : ∀ a, D.Careful (f a)) :
    D.Careful (p.bind f) := by
  refine ⟨hp.guarded.bind (fun a => (hf a).guarded) fun a => (hf a).unarmed, fun k hk => ?_⟩
  rcases hk.of_bind with hk | ⟨a, hk⟩
  · exact hp.unarmed k hk
  · exact (hf a).unarmed k hk

theorem Careful.foldEach {f : σ → α → Proc C A σ} (hf : ∀ s a, D.Careful (f s a)) (l : List α)
    (s : σ) : D.Careful (foldEach f l s) := by
  induction l generalizing s with
  | nil => exact ret
  | cons a l ih => exact (hf s a).bind fun s' => ih s'

theorem Careful.forEach {f : α → Proc C A Unit} (hf : ∀ a, D.Careful (f a)) (l : List α) :
    D.Careful (forEach f l) := by
  induction l with
  | nil => exact ret
  | cons a l ih => exact (hf a).bind fun _ => ih

variable {S : K → Prop}

theorem Confined.guarded (h : D.Confined S p) : D.Guarded p := by
  induction p with
  | ret b => trivial
  | call c next ih => exact Guarded.pass h.1 fun a => ih a (h.2.2 a)

theorem Confined.armed (h : D.Confined S p) (hk : D.Armed k p) : S k := by
  induction hk with
  | now hc => exact h.2.1 k hc
  | later a _ _ ih => exact ih (h.2.2 a)

theorem Confined.bind {p : Proc C A α} (hp : D.Confined S p) (hf : ∀ a, D.Confined S (f a)) :
    D.Confined S (p.bind f) := by
  induction p with
  | ret a => exact hf a
  | call c next ih => exact ⟨hp.1, hp.2.1, fun a => ih a (hp.2.2 a)⟩

theorem Confined.forEach {f : α → Proc C A Unit} (hf : ∀ a ∈ l, D.Confined S (f a)) :
    D.Confined S (forEach f l) := by
  induction l with
  | nil => trivial
  | cons a l ih =>
    exact (hf a List.mem_cons_self).bind fun _ => ih fun b hb => hf b (List.mem_cons_of_mem a hb)

theorem Confined.foldEach {f : σ → α → Proc C A σ} (hf : ∀ s, ∀ a ∈ l, D.Confined S (f s a))
    (s : σ) : D.Confined S (foldEach f l s) := by
  induction l generalizing s with
  | nil => trivial
  | cons a l ih =>
    refine (hf s a List.mem_cons_self).bind fun s' => ?_
    exact ih (fun s b hb => hf s b (List.mem_cons_of_mem a hb)) s'

/-- Confinement is kept by a discipline with fewer checks and fewer acts. -/
theorem Confined.mono {D' : Discipline C A K} (hp : D'.Confined S p)
    (hask : ∀ c, D.asks c → D'.asks c) (hact : ∀ c k, D.acts c k → D'.acts c k)
    (hS : ∀ k, S k → S' k) : D.Confined S' p := by
  induction p with
  | ret b => trivial
  | call c next ih =>
    obtain ⟨hnask, hin, hnext⟩ := hp
    exact ⟨fun hc => hnask (hask c hc), fun k hk => hS k (hin k (hact c k hk)),
      fun a => ih a (hnext a)⟩

/-- A check, and a use of its answer that does not check again. -/
theorem Careful.ask_confined (hask : D.asks c) (hact : ∀ k, ¬ D.acts c k)
    (hnext : ∀ a, D.Confined (D.confirms c a) (next a)) : D.Careful (.call c next) :=
  Careful.ask hask hact (fun a => (hnext a).guarded) fun a _ harmed => (hnext a).armed harmed

end Discipline

/-! ## Programs in a growing world -/

/-- How a world can grow, which commands may be issued in it, and which answers can be given. -/
structure Contract (C : Type) (A : C → Type) (W : Type) where
  grows : W → W → Prop
  may : W → C → Prop
  told : W → (c : C) → A c → Prop
  refl : ∀ w, grows w w
  trans : ∀ {w₁ w₂ w₃}, grows w₁ w₂ → grows w₂ w₃ → grows w₁ w₃

namespace Contract

variable {C : Type} {A : C → Type} {W α β : Type} (K : Contract C A W)

/-- From `w` on, however the world grows, the program issues only commands it may issue and, told
the truth, returns only where `Q` holds. -/
def Keeps (Q : W → β → Prop) : Proc C A β → W → Prop
  | .ret b, w => ∀ w', K.grows w w' → Q w' b
  | .call c next, w =>
    ∀ w', K.grows w w' → K.may w' c ∧ ∀ a, K.told w' c a → Keeps Q (next a) w'

/-- The answer was given in a world that has grown into `w`. -/
def Known (w : W) (c : C) (a : A c) : Prop := ∃ w₀, K.grows w₀ w ∧ K.told w₀ c a

variable {K} {Q Q' : W → β → Prop} {w w' : W} {c : C} {p : Proc C A β} {f : α → Proc C A β}

theorem Known.grow (h : K.Known w c a) (hw : K.grows w w') : K.Known w' c a := by
  obtain ⟨w₀, hw₀, ha⟩ := h
  exact ⟨w₀, K.trans hw₀ hw, ha⟩

theorem Keeps.grow (h : K.Keeps Q p w) (hw : K.grows w w') : K.Keeps Q p w' := by
  cases p with
  | ret b => exact fun w₂ hw₂ => h w₂ (K.trans hw hw₂)
  | call c next => exact fun w₂ hw₂ => h w₂ (K.trans hw hw₂)

/-- Sequencing. -/
theorem Keeps.bind {p : Proc C A α} (hp : K.Keeps M p w)
    (hf : ∀ w' a, K.grows w w' → M w' a → K.Keeps Q (f a) w') : K.Keeps Q (p.bind f) w := by
  induction p generalizing w with
  | ret a => exact hf w a (K.refl w) (hp w (K.refl w))
  | call c next ih =>
    intro w₁ hw₁
    refine ⟨(hp w₁ hw₁).1, fun a ha => ?_⟩
    exact ih a ((hp w₁ hw₁).2 a ha) fun w₂ b hw₂ hb => hf w₂ b (K.trans hw₁ hw₂) hb

theorem Keeps.mono (hp : K.Keeps Q p w) (h : ∀ w' b, K.grows w w' → Q w' b → Q' w' b) :
    K.Keeps Q' p w := by
  induction p generalizing w with
  | ret b => exact fun w' hw' => h w' b hw' (hp w' hw')
  | call c next ih =>
    intro w₁ hw₁
    refine ⟨(hp w₁ hw₁).1, fun a ha => ?_⟩
    exact ih a ((hp w₁ hw₁).2 a ha) fun w₂ b hw₂ hb => h w₂ b (K.trans hw₁ hw₂) hb

/-- The result in an environment that tells the truth of one world. -/
theorem Keeps.eval {h : (c : C) → σ → A c × σ} (hp : K.Keeps Q p w)
    (hh : ∀ c s, K.told w c (h c s).1) (s : σ) : Q w (p.eval h s).1 := by
  induction p generalizing s with
  | ret b => exact hp w (K.refl w)
  | call c next ih => exact ih _ ((hp w (K.refl w)).2 _ (hh c s)) _

/-- A command that may be issued in every world, and what its answer tells. -/
theorem Keeps.perform (h : ∀ w', K.grows w w' → K.may w' c) :
    K.Keeps (fun w a => K.Known w c a) (Proc.perform c : Proc C A (A c)) w := by
  intro w₁ hw₁
  exact ⟨h w₁ hw₁, fun a ha w₂ hw₂ => ⟨w₁, hw₂, ha⟩⟩

end Contract

end Aegis
