import Aegis.Lib.Txn

/-!
# Invariants of concurrent transactions

How to prove that an invariant of the committed world holds in every state a pool of transactions
can reach, one transaction at a time. A `Protocol` says what the world satisfies and, for every
lock, what nobody else can change while the lock is held. A transaction is verified against every
interference that respects its locks (`Protocol.wp`), and must itself respect the locks it does
not hold when it commits (`Protocol.Commits`). The rules for sequencing, statements and loops are
the usual ones of a weakest precondition; `Protocol.sound` is the result for whole runs and
`Protocol.wp_alone` the result for a transaction that runs with nobody else around.
-/

namespace Aegis.Txn

/-- An invariant of the committed world with the discipline that keeps it: `Stable l w w'` says
that `w'` differs from `w` only in what the holder of `l` lets others change, `Mark` singles out
what is taken without waiting for it, `Excluded` are the errors that must not be raised. -/
structure Protocol (Db L Err Call Res : Type) where
  Inv : World Db Call Res → Prop
  Stable : L → World Db Call Res → World Db Call Res → Prop
  Mark : L → Prop
  Excluded : Err → Prop
  refl : ∀ l w, Stable l w w
  trans : ∀ {l a b c}, Stable l a b → Stable l b c → Stable l a c

namespace Protocol

variable {Db L Err Call Res α β : Type} (P : Protocol Db L Err Call Res)

/-- What others can do to the world while `held` is held. -/
def Env (held : List L) (w w' : World Db Call Res) : Prop :=
  P.Inv w' ∧ ∀ l ∈ held, P.Stable l w w'

variable {P}

theorem Env.refl (h : P.Inv w) : P.Env held w w :=
  ⟨h, fun l _ => P.refl l w⟩

theorem Env.trans (h : P.Env held w₁ w₂) (h' : P.Env held w₂ w₃) : P.Env held w₁ w₃ :=
  ⟨h'.1, fun l hl => P.trans (h.2 l hl) (h'.2 l hl)⟩

variable {w' : World Db Call Res}

/-- Holding more leaves others less. -/
theorem Env.mono (hs : held ⊆ held') (h : P.Env held' w w') : P.Env held w w' :=
  ⟨h.1, fun l hl => h.2 l (hs hl)⟩

variable (P)

/-- A condition on where a program returns: its result, what the transaction holds, its writes so
far and the committed world. -/
abbrev Post (Db L Call Res β : Type) : Type :=
  β → List L → (Db → Db) → World Db Call Res → Prop

/-- The weakest precondition: from `held`, `eff` and `w`, under every interference the held locks
admit, the program waits for all it takes but marks, raises nothing excluded and returns only where
`Q` holds. -/
def wp : Prog Db L Err β → Post Db L Call Res β → List L → (Db → Db) → World Db Call Res → Prop
  | .ret b, Q, held, eff, w => Q b held eff w
  | .raise e, _, _, _, _ => ¬ P.Excluded e
  | .step waits takes write next, Q, held, eff, w =>
    ∀ w', P.Env held w w' → (∀ l ∈ takes (eff w'.db), P.Mark l ∨ l ∈ waits (eff w'.db)) ∧
      wp (next (eff w'.db)) Q (takes (eff w'.db) ++ held)
        (fun d => write (eff w'.db) (eff d)) w'

variable {P} {Q Q' : Post Db L Call Res β} {held : List L} {eff : Db → Db} {w : World Db Call Res}

/-! ## Rules -/

@[simp] theorem wp_ret (b : β) : P.wp (.ret b) Q held eff w ↔ Q b held eff w := Iff.rfl

@[simp] theorem wp_raise (e : Err) : P.wp (.raise e) Q held eff w ↔ ¬ P.Excluded e := Iff.rfl

/-- Sequencing. -/
@[simp] theorem wp_bind (p : Prog Db L Err α) (f : α → Prog Db L Err β) :
    P.wp (p.bind f) Q held eff w ↔ P.wp p (fun a => P.wp (f a) Q) held eff w := by
  induction p generalizing held eff w with
  | ret a => exact Iff.rfl
  | raise e => exact Iff.rfl
  | step waits takes write next ih =>
    exact forall_congr' fun w' => imp_congr_right fun _ => and_congr_right fun _ => ih (eff w'.db)

variable {p : Prog Db L Err β}

/-- Consequence. -/
theorem wp_mono (h : P.wp p Q held eff w)
    (hQ : ∀ b held' eff' w', Q b held' eff' w' → Q' b held' eff' w') : P.wp p Q' held eff w := by
  induction p generalizing held eff w with
  | ret b => exact hQ _ _ _ _ h
  | raise e => exact h
  | step waits takes write next ih =>
    intro w' hw'
    exact ⟨(h w' hw').1, ih _ (h w' hw').2⟩

/-- A program verified in a world is verified after any interference, if its postcondition is. -/
theorem wp_env (hQ : ∀ {b held eff w w'}, Q b held eff w → P.Env held w w' → Q b held eff w')
    (h : P.wp p Q held eff w) (hw : P.Env held w w') : P.wp p Q held eff w' := by
  cases p with
  | ret b => exact hQ h hw
  | raise e => exact h
  | step waits takes write next =>
    intro w₂ hw₂
    exact h w₂ (hw.trans hw₂)

/-- Frame: what the held locks keep others from changing stays true. -/
theorem wp_frame {R : List L → World Db Call Res → Prop}
    (hR : ∀ {held held' w w'}, held ⊆ held' → P.Env held w w' → R held w → R held' w')
    (h : P.wp p Q held eff w) (hw : R held w) :
    P.wp p (fun b held eff w => Q b held eff w ∧ R held w) held eff w := by
  induction p generalizing held eff w with
  | ret b => exact ⟨h, hw⟩
  | raise e => exact h
  | step waits takes write next ih =>
    intro w' hw'
    exact ⟨(h w' hw').1, ih _ (h w' hw').2 (hR (List.subset_append_right _ _) hw' hw)⟩

/-- Conjunction. -/
theorem wp_and (h : P.wp p Q held eff w) (h' : P.wp p Q' held eff w) :
    P.wp p (fun b held eff w => Q b held eff w ∧ Q' b held eff w) held eff w := by
  induction p generalizing held eff w with
  | ret b => exact ⟨h, h'⟩
  | raise e => exact h
  | step waits takes write next ih =>
    intro w' hw'
    exact ⟨(h w' hw').1, ih _ (h w' hw').2 (h' w' hw').2⟩

/-- What is verified against some interference is verified against less. -/
theorem wp_less {P' : Protocol Db L Err Call Res} (h : P.wp p Q held eff w)
    (hmark : ∀ l, P.Mark l → P'.Mark l) (hexcl : ∀ e, P'.Excluded e → P.Excluded e)
    (henv : ∀ {held : List L} {w w' : World Db Call Res}, P'.Env held w w' → P.Env held w w') :
    P'.wp p Q held eff w := by
  induction p generalizing held eff w with
  | ret b => exact h
  | raise e => exact fun he => h (hexcl e he)
  | step waits takes write next ih =>
    intro w' hw'
    obtain ⟨htakes, hnext⟩ := h w' (henv hw')
    exact ⟨fun l hl => (htakes l hl).imp_left (hmark l), ih _ hnext⟩

/-- What is verified of a program by the databases alone holds for any calls and results. -/
theorem wp_retype {P' : Protocol Db L Err Call' Res'} {Q' : Post Db L Call' Res' β}
    {w : World Db Call' Res'} (h : P.wp p Q held eff ⟨w.db, []⟩) (hmark : ∀ l, P.Mark l → P'.Mark l)
    (hexcl : ∀ e, P'.Excluded e → P.Excluded e)
    (henv : ∀ {held : List L} {w w' : World Db Call' Res'},
      P'.Env held w w' → P.Env held ⟨w.db, []⟩ ⟨w'.db, []⟩)
    (hQ : ∀ b held eff w, Q b held eff ⟨w.db, []⟩ → Q' b held eff w) : P'.wp p Q' held eff w := by
  induction p generalizing held eff w with
  | ret b => exact hQ b held eff w h
  | raise e => exact fun he => h (hexcl e he)
  | step waits takes write next ih =>
    intro w' hw'
    obtain ⟨htakes, hnext⟩ := h ⟨w'.db, []⟩ (henv hw')
    exact ⟨fun l hl => (htakes l hl).imp_left (hmark l), ih _ hnext⟩

theorem wp_check {Q : Post Db L Call Res Unit} :
    P.wp (Prog.check c e : Prog Db L Err Unit) Q held eff w ↔
      (c = true → Q () held eff w) ∧ (c = false → ¬ P.Excluded e) := by
  cases c <;> simp [Prog.check]

/-- Loops: an assertion about the elements still to come, kept by each round. -/
theorem wp_forEach {I : List α → Post Db L Call Res Unit} (hI : I l () held eff w)
    (hround : ∀ {a l held eff w}, I (a :: l) () held eff w → P.wp (f a) (I l) held eff w) :
    P.wp (Prog.forEach l f) (I []) held eff w := by
  induction l generalizing held eff w with
  | nil => exact hI
  | cons a l ih =>
    refine (wp_bind _ _).2 (wp_mono (hround hI) ?_)
    intro _ held' eff' w' h
    exact ih h

/-- Loops that collect: an assertion about the elements still to come and the results so far. -/
theorem wp_collect {I : List α → Post Db L Call Res (List β)} (bs : List β) (hI : I l bs held eff w)
    (hround : ∀ {a l bs held eff w}, I (a :: l) bs held eff w →
      P.wp (f a) (fun o => I l (bs ++ o.toList)) held eff w) :
    P.wp (Prog.collect l f) (fun bs' => I [] (bs ++ bs')) held eff w := by
  induction l generalizing bs held eff w with
  | nil => simpa [Prog.collect] using hI
  | cons a l ih =>
    refine (wp_bind _ _).2 (wp_mono (hround hI) ?_)
    intro o held' eff' w' h
    refine (wp_bind _ _).2 (wp_mono (ih _ h) ?_)
    intro bs' held'' eff'' w'' h'
    simpa using h'

/-- A verified program run alone ends where its postcondition holds, or raises nothing excluded. -/
theorem wp_alone (h : P.wp p Q held eff w) (hw : P.Inv w) :
    match p.alone (eff w.db) with
    | .ok (b, d) => ∃ held' eff', eff' w.db = d ∧ Q b held' eff' w
    | .error e => ¬ P.Excluded e := by
  induction p generalizing held eff with
  | ret b => exact ⟨held, eff, rfl, h⟩
  | raise e => exact h
  | step waits takes write next ih => exact ih _ (h w (Env.refl hw)).2

/-! ## Whole runs -/

section Runs

variable [Lock L] (P)

/-- At the end of a transaction: committing keeps the invariant, and changes nothing that a lock
compatible with the held ones protects. -/
def Commits (c : Call) : Post Db L Call Res Res := fun r held eff w =>
  ∀ w', P.Env held w w' → ∀ i, P.Inv (w'.commit i c r eff) ∧
    ∀ l, (∀ m ∈ held, Lock.conflicts m l = false) → P.Stable l w' (w'.commit i c r eff)

variable {P}

theorem Commits.env (h : P.Commits c r held eff w) (hw : P.Env held w w') :
    P.Commits c r held eff w' :=
  fun w₂ hw₂ => h w₂ (hw.trans hw₂)

variable (P)

/-- The invariant of the pool: the world is good, no two transactions hold conflicting locks, every
running transaction is verified from where it is, and no excluded error has been raised. -/
structure Good (s : Sys Db L Err Call Res) : Prop where
  inv : P.Inv s.world
  apart : ∀ {i j : Nat} {t u : Tx Db L Err Call Res}, s.txns[i]? = some t →
    s.txns[j]? = some u → i ≠ j → ∀ a ∈ t.held, ∀ b ∈ u.held, Lock.conflicts a b = false
  safe : ∀ {i : Nat} {t : Tx Db L Err Call Res} {p}, s.txns[i]? = some t →
    t.phase = .running p → P.wp p (P.Commits t.call) t.held t.eff s.world
  errs : ∀ {i : Nat} {t : Tx Db L Err Call Res} {e}, s.txns[i]? = some t →
    t.phase = .failed e → ¬ P.Excluded e

variable {P} {d : Db} {s : Sys Db L Err Call Res} {body : Call → Prog Db L Err Res}

/-- Replacing a transaction keeps the pool good if the new one conflicts with no other, is
verified if it runs, and raised nothing excluded. -/
theorem Good.put (h : P.Good s) {i : Nat} {t : Tx Db L Err Call Res}
    (hheld : ∀ (j : Nat) (u : Tx Db L Err Call Res), s.txns[j]? = some u → j ≠ i →
      ∀ a ∈ t.held, ∀ b ∈ u.held, Lock.conflicts a b = false)
    (hsafe : ∀ p, t.phase = .running p → P.wp p (P.Commits t.call) t.held t.eff s.world)
    (herr : ∀ e, t.phase = .failed e → ¬ P.Excluded e) : P.Good (s.put i t) where
  inv := h.inv
  apart := Sys.Apart.put (fun hab => (Lock.symm _ _).trans hab) h.apart hheld
  safe {j u p} hj := Sys.forall_put (Φ := fun _ u => ∀ p, u.phase = .running p →
    P.wp p (P.Commits u.call) u.held u.eff s.world) (fun _ _ hj _ => h.safe hj) hsafe j u hj p
  errs {j u e} hj := Sys.forall_put (Φ := fun _ u => ∀ e, u.phase = .failed e → ¬ P.Excluded e)
    (fun _ _ hj _ => h.errs hj) herr j u hj e

/-- When a transaction commits, what it did to the world is an interference the others' locks
admit. -/
theorem Good.env_commit (h : P.Good s) (hi : s.txns[i]? = some t) (ht : t.phase = .running (.ret r))
    (hj : s.txns[j]? = some u) (hij : i ≠ j) :
    P.Env u.held s.world (s.world.commit i t.call r t.eff) := by
  obtain ⟨hinv, hstable⟩ := (h.safe hi ht) s.world (Env.refl h.inv) i
  exact ⟨hinv, fun l hl => hstable l fun m hm => h.apart hi hj hij m hm l hl⟩

/-- A step keeps the pool good, if what it starts is verified, and it is clear or there are no
marks. -/
theorem Good.does (hbody : ∀ c, a = .start c → ∀ w, P.Inv w → P.wp (body c) (P.Commits c) [] id w)
    (h : P.Good s) (hc : (∀ l, ¬ P.Mark l) ∨ s.clear a = true) (hd : Sys.Does body s a s') :
    P.Good s' := by
  cases hd with
  | start c =>
    refine ⟨h.inv, Sys.Apart.start h.apart c id _, fun {j t p} hj hp => ?_,
      fun {j t e} hj he => ?_⟩
    · rcases Sys.getElem?_start hj with hj | ⟨-, rfl⟩
      · exact h.safe hj hp
      · cases hp
        exact hbody c rfl _ h.inv
    · rcases Sys.getElem?_start hj with hj | ⟨-, rfl⟩
      · exact h.errs hj he
      · cases he
  | raise hi =>
    refine h.put (fun _ _ _ _ _ ha => nomatch ha) nofun ?_
    intro e he
    cases he
    exact h.safe hi rfl
  | @step i c held eff waits takes write next hi hf =>
    obtain ⟨hwaits, hnext⟩ := h.safe hi rfl s.world (Env.refl h.inv)
    refine h.put ?_ ?_ nofun
    · intro j u hj hne a ha b hb
      rcases List.mem_append.1 ha with ha | ha
      · rw [Lock.symm]
        rcases hc with hc | hc
        · exact Sys.free_iff.1 hf j u hj hne b hb a ((hwaits a ha).resolve_left (hc a))
        · simp only [Sys.clear, hi] at hc
          exact Sys.free_iff.1 hc j u hj hne b hb a ha
      · exact h.apart hi hj (Ne.symm hne) a ha b hb
    · intro p hp
      cases hp
      exact hnext
  | @commit i c held eff r hi =>
    have hinv : P.Inv (s.world.commit i c r eff) :=
      ((h.safe hi rfl) s.world (Env.refl h.inv) i).1
    have hput : P.Good (s.put i ⟨c, [], eff, .committed r⟩) :=
      h.put (fun _ _ _ _ _ ha => nomatch ha) nofun nofun
    refine ⟨hinv, hput.apart, ?_, hput.errs⟩
    intro j u p hj hp
    have hj' := hj
    simp only [Sys.getElem?_put] at hj'
    split at hj'
    · cases hj'
      cases hp
    · next hij =>
      have hlt := (List.getElem?_eq_some_iff.1 hj').1
      exact wp_env (Q := P.Commits u.call) Commits.env (h.safe hj' hp)
        (h.env_commit hi rfl hj' fun hij' => hij ⟨hij', hlt⟩)
  | abort hi => exact h.put (fun _ _ _ _ _ ha => nomatch ha) nofun nofun

/-- A pool with no transaction is good if the world is. -/
theorem Good.init (h : P.Inv ⟨d, []⟩) :
    P.Good (Sys.init d : Sys Db L Err Call Res) where
  inv := h
  apart hi := by simp [Sys.init] at hi
  safe hi := by simp [Sys.init] at hi
  errs hi := by simp [Sys.init] at hi

/-- **Soundness.** If every call is verified from every good world and nothing is a mark, then
after every run from a good database the world is good and no excluded error has been raised. -/
theorem sound (hmark : ∀ l, ¬ P.Mark l)
    (hbody : ∀ c w, P.Inv w → P.wp (body c) (P.Commits c) [] id w) (h0 : P.Inv ⟨d, []⟩)
    (hr : (Sys.init d).run body as = some s) : P.Good s :=
  Sys.run_induction (fun h hd => h.does (fun c _ => hbody c) (.inl hmark) hd) (Good.init h0) hr

/-- **Soundness for clear runs**, where transactions may also rely on each other's marks. -/
theorem sound_of_clear (hbody : ∀ c w, P.Inv w → P.wp (body c) (P.Commits c) [] id w)
    (h0 : P.Inv ⟨d, []⟩) (hc : Sys.Clear body (Sys.init d) as)
    (hr : (Sys.init d).run body as = some s) : P.Good s :=
  Sys.clear_run_induction (fun h hc hd => h.does (fun c _ => hbody c) (.inr hc) hd)
    (Good.init h0) hc hr

end Runs

end Protocol

end Aegis.Txn
