import Mathlib.Tactic

/-!
# Runs of a state machine

The runs of a machine given by its step function, and runs all of whose actions meet a condition in
the state they are taken in. What holds at the start and is kept by every action that meets the
condition holds wherever such a run ends.
-/

/-- Two facts about what a computation ends with. -/
theorem Aegis.exists_of_map_eq_pair {o : Option α} {f : α → β} {g : α → γ}
    (h : (o.map fun x => (f x, g x)) = some (b, c)) : ∃ x, o = some x ∧ f x = b ∧ g x = c := by
  obtain ⟨x, hx, hpair⟩ := Option.map_eq_some_iff.1 h
  obtain ⟨hf, hg⟩ := Prod.mk.inj hpair
  exact ⟨x, hx, hf, hg⟩

namespace Aegis.Run

variable {S A : Type} (step : S → A → Option S)

/-- The state after a list of actions, if each is possible where it is taken. -/
def run : S → List A → Option S
  | s, [] => some s
  | s, a :: as => (step s a).bind fun s' => run s' as

/-- Every action of the run meets the condition in the state it is taken in. -/
def Throughout (ok : S → A → Prop) : S → List A → Prop
  | _, [] => True
  | s, a :: as => ok s a ∧ ∀ s', step s a = some s' → Throughout ok s' as

instance decidableThroughout {ok : S → A → Prop} [∀ s a, Decidable (ok s a)] : (s : S) →
    (as : List A) → Decidable (Throughout step ok s as)
  | _, [] => isTrue trivial
  | s, a :: as =>
    have (s' : S) : Decidable (Throughout step ok s' as) := decidableThroughout s' as
    inferInstanceAs (Decidable (ok s a ∧ ∀ s' ∈ step s a, Throughout step ok s' as))

/-- The same for a condition that can be tested. -/
def throughout (ok : S → A → Bool) : S → List A → Bool
  | _, [] => true
  | s, a :: as => ok s a && (step s a).all fun s' => throughout ok s' as

variable {step} {s' : S} {I : S → Prop}

theorem run_cons (h : step s a = some s') (as : List A) :
    run step s (a :: as) = run step s' as := by
  rw [run, h, Option.bind_some]

theorem run_append (h : run step s as = some s') (bs : List A) :
    run step s (as ++ bs) = run step s' bs := by
  induction as generalizing s with
  | nil =>
    cases h
    rfl
  | cons a as ih =>
    obtain ⟨s₁, hs₁, h⟩ := Option.bind_eq_some_iff.1 h
    rw [List.cons_append, run_cons hs₁, ih h]

/-- A test that is met all along a run, and that implies a condition. -/
theorem Throughout.of_throughout (himp : ∀ s a, test s a = true → ok s a)
    (h : throughout step test s as = true) : Throughout step ok s as := by
  induction as generalizing s with
  | nil => trivial
  | cons a as ih =>
    obtain ⟨ha, hrest⟩ := Bool.and_eq_true_iff.1 h
    refine ⟨himp s a ha, fun s' hs' => ?_⟩
    rw [hs', Option.all_some] at hrest
    exact ih hrest

/-- A condition that every action meets in every state. -/
theorem Throughout.of_forall (h : ∀ a ∈ as, ∀ s, ok s a) (s : S) : Throughout step ok s as := by
  induction as generalizing s with
  | nil => trivial
  | cons a as ih =>
    exact ⟨h a List.mem_cons_self s,
      fun s' _ => ih (fun b hb => h b (List.mem_cons_of_mem a hb)) s'⟩

/-- **Invariants of runs.** -/
theorem Throughout.run_induction (hstep : ∀ {s a s'}, I s → ok s a → step s a = some s' → I s')
    (h0 : I s) (hok : Throughout step ok s as) (hrun : run step s as = some s') : I s' := by
  induction as generalizing s with
  | nil =>
    cases hrun
    exact h0
  | cons a as ih =>
    obtain ⟨s₁, hs₁, hrun⟩ := Option.bind_eq_some_iff.1 hrun
    exact ih (hstep h0 hok.1 hs₁) (hok.2 s₁ hs₁) hrun

/-- Invariants of runs of actions that satisfy a condition of their own. -/
theorem run_of_forall {P : A → Prop} (hstep : ∀ {s a s'}, I s → P a → step s a = some s' → I s')
    (h0 : I s) (hP : ∀ a ∈ as, P a) (hrun : run step s as = some s') : I s' := by
  have hok : Throughout step (fun _ a => P a) s as := .of_forall (fun a ha _ => hP a ha) s
  exact hok.run_induction hstep h0 hrun

/-- What every action keeps, every run keeps. -/
theorem invariant (hstep : ∀ {s a s'}, I s → step s a = some s' → I s') (h0 : I s)
    (hrun : run step s as = some s') : I s' :=
  run_of_forall (P := fun _ => True) (fun hI _ hs => hstep hI hs) h0 (fun _ _ => trivial) hrun

theorem run_induction (hstep : ∀ {s a s'}, I s → test s a = true → step s a = some s' → I s')
    (h0 : I s) (hok : throughout step test s as = true) (hrun : run step s as = some s') : I s' :=
  Throughout.run_induction (fun hI ha hs => hstep hI ha hs) h0
    (Throughout.of_throughout (fun _ _ => id) hok) hrun

/-! ## Runs put together -/

/-- The run ends in `s'`, and every action of it meets the condition. -/
structure Reaches (step : S → A → Option S) (ok : S → A → Prop) (s : S) (as : List A) (s' : S) :
    Prop where
  throughout : Throughout step ok s as
  run : run step s as = some s'

namespace Reaches

theorem nil : Reaches step ok s [] s := ⟨trivial, rfl⟩

theorem cons (hok : ok s a) (hstep : step s a = some s₁) (h : Reaches step ok s₁ as s₂) :
    Reaches step ok s (a :: as) s₂ where
  throughout := by
    refine ⟨hok, fun s' hs' => ?_⟩
    cases hstep.symm.trans hs'
    exact h.throughout
  run := (run_cons hstep as).trans h.run

end Reaches

/-- The parties of a machine after one of them has gone on. -/
theorem mem_modify {l : List α} {g : α → α} (h : a ∈ l.modify i g) :
    a ∈ l ∨ ∃ a₀, l[i]? = some a₀ ∧ a = g a₀ := by
  obtain ⟨k, hk⟩ := List.mem_iff_getElem?.1 h
  rw [List.getElem?_modify] at hk
  obtain ⟨a₀, ha₀, rfl⟩ := Option.map_eq_some_iff.1 hk
  split
  · next hik =>
    subst hik
    exact .inr ⟨a₀, ha₀, rfl⟩
  · exact .inl (List.mem_of_getElem? ha₀)

end Aegis.Run
