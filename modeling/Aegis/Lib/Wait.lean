import Aegis.Lib.Rely
import Aegis.Lib.Run

/-!
# Transactions that wait for each other

When one transaction of a pool waits for another, when the pool is deadlocked, and how to show that
it never is. A deadlock is a cycle of waiting transactions. If what is held can be ranked such that
whoever is waited for waits itself only for something of a higher rank, there is no cycle
(`Sys.not_deadlocked_of_rank`).

What a transaction waits for, with what it holds by then, is a property of its program. It is
verified along the program against every interference (`Protocol.watch`), with the rules of a
weakest precondition; `Protocol.watched_run` then gives it for every state of every run, with the
exclusion of conflicting locks. In contrast to `Protocol.wp`, marks may be in conflict.
-/

namespace Aegis.Txn

namespace Sys

variable {Db L Err Call Res : Type} [Lock L]

/-- Transaction `i` waits for `j`: its next step waits for a lock that conflicts with one that `j`
holds. -/
def waits (s : Sys Db L Err Call Res) (i j : Nat) : Bool :=
  match s.txns[i]?, s.txns[j]? with
  | some ⟨_, _, eff, .running (.step waits _ _ _)⟩, some t =>
    i != j && t.held.any fun m => (waits (eff s.world.db)).any fun l => Lock.conflicts m l
  | _, _ => false

/-- Some transactions wait for each other in a cycle. -/
def Deadlocked (s : Sys Db L Err Call Res) : Prop :=
  ∃ i, Relation.TransGen (fun i j => s.waits i j = true) i i

/-- Transaction `i` waits for lock `l`, which conflicts with the lock `m` that `j` holds. -/
structure WaitsOver (s : Sys Db L Err Call Res) (i j : Nat) (t u : Tx Db L Err Call Res) (l m : L) :
    Prop where
  waiter : s.txns[i]? = some t
  holder : s.txns[j]? = some u
  apart : i ≠ j
  waiting : ∃ waits takes write next, t.phase = .running (.step waits takes write next) ∧
    l ∈ waits (t.eff s.world.db)
  held : m ∈ u.held
  conflict : Lock.conflicts m l = true

variable {s : Sys Db L Err Call Res}

theorem waitsOver_of_waits (h : s.waits i j = true) : ∃ t u l m, s.WaitsOver i j t u l m := by
  unfold waits at h
  split at h
  · next hi hj =>
    simp only [Bool.and_eq_true, bne_iff_ne, List.any_eq_true] at h
    obtain ⟨hne, m, hm, l, hl, hconf⟩ := h
    exact ⟨_, _, l, m, hi, hj, hne, ⟨_, _, _, _, rfl, hl⟩, hm, hconf⟩
  · cases h

/-- **No cycle of waits.** If whoever is waited for over `m` waits itself only over locks that rank
above `m`, the pool is not deadlocked: along a chain of waits the ranks increase. On a cycle the
last one waits as well. -/
theorem not_deadlocked_of_rank [Preorder α] (rank : L → α)
    (hrank : ∀ {i j k n : Nat} {t u v x : Tx Db L Err Call Res} {l m l' m' l'' m'' : L},
      s.WaitsOver i j t u l m → s.WaitsOver j k u v l' m' → s.WaitsOver k n v x l'' m'' →
      rank m < rank m') : ¬s.Deadlocked := by
  have hchain : ∀ i j, Relation.TransGen (fun i j => s.waits i j = true) i j →
      (∃ n, s.waits j n = true) →
      ∃ z t u l m, s.WaitsOver z j t u l m ∧ ∀ h t₀ u₀ l₀ m₀, s.WaitsOver h i t₀ u₀ l₀ m₀ →
        rank m₀ < rank m := by
    intro i j hij
    induction hij with
    | single h =>
      rintro ⟨n, hn⟩
      obtain ⟨t, u, l, m, hw⟩ := waitsOver_of_waits h
      obtain ⟨u', v, l', m', hw'⟩ := waitsOver_of_waits hn
      obtain rfl := Option.some.inj (hw.holder.symm.trans hw'.waiter)
      refine ⟨i, t, u, l, m, hw, fun h t₀ u₀ l₀ m₀ h₀ => ?_⟩
      obtain rfl := Option.some.inj (hw.waiter.symm.trans h₀.holder)
      exact hrank h₀ hw hw'
    | tail _ h ih =>
      rintro ⟨n, hn⟩
      obtain ⟨z, t, u, l, m, hz, hlt⟩ := ih ⟨_, h⟩
      obtain ⟨t', u', l', m', hw⟩ := waitsOver_of_waits h
      obtain ⟨u'', v, l'', m'', hw'⟩ := waitsOver_of_waits hn
      obtain rfl := Option.some.inj (hw.waiter.symm.trans hz.holder)
      obtain rfl := Option.some.inj (hw.holder.symm.trans hw'.waiter)
      refine ⟨_, _, u', l', m', hw, fun h t₀ u₀ l₀ m₀ h₀ => ?_⟩
      exact (hlt h t₀ u₀ l₀ m₀ h₀).trans (hrank hz hw hw')
  rintro ⟨i, hcycle⟩
  obtain ⟨n, hn, -⟩ := Relation.TransGen.head'_iff.1 hcycle
  obtain ⟨z, t, u, l, m, hz, hlt⟩ := hchain i i hcycle ⟨n, hn⟩
  exact lt_irrefl _ (hlt z t u l m hz)

end Sys

/-- What a transaction may wait for and what marks it may leave, given what it holds and the
world. -/
structure Conduct (Db L Call Res : Type) where
  waits : List L → World Db Call Res → L → Prop
  marks : List L → World Db Call Res → L → Prop

namespace Protocol

variable {Db L Err Call Res α β : Type} (P : Protocol Db L Err Call Res)

/-- From `held`, `eff` and `w`, under every interference the held locks admit, the program waits and
leaves marks as `ok` says, waits for all else that it takes, and returns only where `Q` holds. -/
def watch (ok : Conduct Db L Call Res) :
    Prog Db L Err β → Post Db L Call Res β → List L → (Db → Db) → World Db Call Res → Prop
  | .ret b, Q, held, eff, w => Q b held eff w
  | .raise _, _, _, _, _ => True
  | .step waits takes write next, Q, held, eff, w =>
    ∀ w', P.Env held w w' →
      (∀ l ∈ takes (eff w'.db), P.Mark l ∧ ok.marks held w' l ∨ l ∈ waits (eff w'.db)) ∧
      (∀ l ∈ waits (eff w'.db), ok.waits held w' l) ∧
      watch ok (next (eff w'.db)) Q (takes (eff w'.db) ++ held)
        (fun d => write (eff w'.db) (eff d)) w'

variable {P} {ok : Conduct Db L Call Res} {Q Q' : Post Db L Call Res β}
  {held : List L} {eff : Db → Db} {w : World Db Call Res}

/-! ## Rules -/

theorem watch_bind (h : P.watch ok p (fun a => P.watch ok (f a) Q) held eff w) :
    P.watch ok (p.bind f) Q held eff w := by
  induction p generalizing held eff w with
  | ret a => exact h
  | raise e => trivial
  | step waits takes write next ih =>
    intro w' hw'
    exact ⟨(h w' hw').1, (h w' hw').2.1, ih _ (h w' hw').2.2⟩

theorem watch_mono (h : P.watch ok p Q held eff w)
    (hQ : ∀ b held' eff' w', Q b held' eff' w' → Q' b held' eff' w') :
    P.watch ok p Q' held eff w := by
  induction p generalizing held eff w with
  | ret b => exact hQ _ _ _ _ h
  | raise e => trivial
  | step waits takes write next ih =>
    intro w' hw'
    exact ⟨(h w' hw').1, (h w' hw').2.1, ih _ (h w' hw').2.2⟩

theorem watch_env (hQ : ∀ {b held eff w w'}, Q b held eff w → P.Env held w w' → Q b held eff w')
    (h : P.watch ok p Q held eff w) (hw : P.Env held w w') : P.watch ok p Q held eff w' := by
  cases p with
  | ret b => exact hQ h hw
  | raise e => trivial
  | step waits takes write next =>
    intro w₂ hw₂
    exact h w₂ (hw.trans hw₂)

/-- A statement whose takes are waited for. -/
theorem watch_stmt {Q : Post Db L Call Res Db} (htakes : ∀ v, takes v ⊆ waits v)
    (h : ∀ w', P.Env held w w' → (∀ l ∈ waits (eff w'.db), ok.waits held w' l) ∧
      Q (eff w'.db) (takes (eff w'.db) ++ held) (fun d => write (eff w'.db) (eff d)) w') :
    P.watch ok (.stmt waits takes write : Prog Db L Err Db) Q held eff w :=
  fun w' hw' => ⟨fun _ hl => .inr (htakes _ hl), h w' hw'⟩

/-- A statement that leaves marks and waits for nothing. -/
theorem watch_mark {Q : Post Db L Call Res Db} (hmark : ∀ v, ∀ l ∈ takes v, P.Mark l)
    (h : ∀ w', P.Env held w w' → (∀ l ∈ takes (eff w'.db), ok.marks held w' l) ∧
      Q (eff w'.db) (takes (eff w'.db) ++ held) eff w') :
    P.watch ok (.stmt (fun _ => []) takes (fun _ d => d) : Prog Db L Err Db) Q held eff w :=
  fun w' hw' => ⟨fun l hl => .inl ⟨hmark _ l hl, (h w' hw').1 l hl⟩, nofun, (h w' hw').2⟩

theorem watch_read {Q : Post Db L Call Res Db}
    (h : ∀ w', P.Env held w w' → Q (eff w'.db) held eff w') :
    P.watch ok (.read : Prog Db L Err Db) Q held eff w :=
  watch_mark (fun _ => nofun) fun w' hw' => ⟨nofun, h w' hw'⟩

theorem watch_acquire {Q : Post Db L Call Res Db}
    (h : ∀ w', P.Env held w w' → (∀ l ∈ locks (eff w'.db), ok.waits held w' l) ∧
      Q (eff w'.db) (locks (eff w'.db) ++ held) eff w') :
    P.watch ok (.acquire locks : Prog Db L Err Db) Q held eff w :=
  watch_stmt (fun _ => List.Subset.refl _) h

theorem watch_check {Q : Post Db L Call Res Unit} (h : c = true → Q () held eff w) :
    P.watch ok (.check c e : Prog Db L Err Unit) Q held eff w := by
  cases c with
  | true => exact h rfl
  | false => trivial

theorem watch_checked {f : Unit → Prog Db L Err β}
    (hf : c = true → P.watch ok (f ()) Q held eff w) :
    P.watch ok ((.check c e : Prog Db L Err Unit).bind f) Q held eff w :=
  watch_bind (watch_check hf)

theorem watch_ite [Decidable c] (hp : c → P.watch ok p Q held eff w)
    (hq : ¬c → P.watch ok q Q held eff w) : P.watch ok (if c then p else q) Q held eff w := by
  split
  · next hc => exact hp hc
  · next hc => exact hq hc

/-- Loops: an assertion about the elements done and to come, kept by each round. -/
theorem watch_forEach {I : List α → List L → (Db → Db) → World Db Call Res → Prop} (done : List α)
    (hI : I done held eff w)
    (hround : ∀ {done a rest held eff w}, done ++ a :: rest = l → I done held eff w →
      P.watch ok (f a) (fun _ => I (done ++ [a])) held eff w) (hl : done ++ rest = l) :
    P.watch ok (Prog.forEach rest f) (fun _ => I l) held eff w := by
  induction rest generalizing done held eff w with
  | nil =>
    rw [List.append_nil] at hl
    exact hl ▸ hI
  | cons a rest ih =>
    refine watch_bind (watch_mono (hround hl hI) ?_)
    intro _ held' eff' w' h
    exact ih _ h (by rw [List.append_assoc]; exact hl)

/-- Loops that collect. -/
theorem watch_collect {I : List α → List L → (Db → Db) → World Db Call Res → Prop} (done : List α)
    (hI : I done held eff w)
    (hround : ∀ {done a rest held eff w}, done ++ a :: rest = l → I done held eff w →
      P.watch ok (f a) (fun _ => I (done ++ [a])) held eff w) (hl : done ++ rest = l) :
    P.watch ok (Prog.collect rest f) (fun _ => I l) held eff w := by
  induction rest generalizing done held eff w with
  | nil =>
    rw [List.append_nil] at hl
    exact hl ▸ hI
  | cons a rest ih =>
    refine watch_bind (watch_mono (hround hl hI) ?_)
    intro _ held' eff' w' h
    refine watch_bind (watch_mono (ih _ h (by rw [List.append_assoc]; exact hl)) ?_)
    intro _ _ _ _ h'
    exact h'

/-! ## Whole runs -/

section Runs

variable [Lock L] (P)

/-- At the end of a transaction: committing keeps the invariant, and changes nothing that a lock
protects which others may hold. -/
def Settles (c : Call) : Post Db L Call Res Res := fun r held eff w =>
  ∀ w', P.Env held w w' → ∀ i, P.Inv (w'.commit i c r eff) ∧
    ∀ l, (∀ m ∈ held, P.Mark m ∨ P.Mark l ∨ Lock.conflicts m l = false) →
      P.Stable l w' (w'.commit i c r eff)

/-- The invariant of the pool: the world is good, no two transactions hold conflicting locks, and
every running transaction is watched from where it is. -/
structure Watched (ok : Call → Conduct Db L Call Res) (s : Sys Db L Err Call Res) : Prop where
  inv : P.Inv s.world
  apart : ∀ {i j : Nat} {t u : Tx Db L Err Call Res}, s.txns[i]? = some t → s.txns[j]? = some u →
    i ≠ j → ∀ a ∈ t.held, ∀ b ∈ u.held, P.Mark a ∨ P.Mark b ∨ Lock.conflicts a b = false
  safe : ∀ {i : Nat} {t : Tx Db L Err Call Res} {p}, s.txns[i]? = some t → t.phase = .running p →
    P.watch (ok t.call) p (P.Settles t.call) t.held t.eff s.world

variable {P} {ok : Call → Conduct Db L Call Res} {s s' : Sys Db L Err Call Res}

/-- Replacing a transaction. -/
theorem Watched.put (h : P.Watched ok s) {i : Nat} {t : Tx Db L Err Call Res}
    (hheld : ∀ (j : Nat) (u : Tx Db L Err Call Res), s.txns[j]? = some u → j ≠ i →
      ∀ a ∈ t.held, ∀ b ∈ u.held, P.Mark a ∨ P.Mark b ∨ Lock.conflicts a b = false)
    (hsafe : ∀ p, t.phase = .running p →
      P.watch (ok t.call) p (P.Settles t.call) t.held t.eff s.world) :
    P.Watched ok (s.put i t) where
  inv := h.inv
  apart := Sys.Apart.put (fun hm => by rwa [Lock.symm, or_left_comm]) h.apart hheld
  safe {j u p} hj := Sys.forall_put (Φ := fun _ u => ∀ p, u.phase = .running p →
    P.watch (ok u.call) p (P.Settles u.call) u.held u.eff s.world) (fun _ _ hj _ => h.safe hj) hsafe
    j u hj p

/-- **One action** keeps the pool watched. -/
theorem Watched.does (h : P.Watched ok s)
    (hbody : ∀ c w, a = .start c → P.Inv w →
      P.watch (ok c) (body c) (P.Settles c) [] id w) (hd : Sys.Does body s a s') :
    P.Watched ok s' := by
  cases hd with
  | start c =>
    refine ⟨h.inv, Sys.Apart.start h.apart c id _, fun {j t p} hj hp => ?_⟩
    rcases Sys.getElem?_start hj with hj | ⟨-, rfl⟩
    · exact h.safe hj hp
    · cases hp
      exact hbody c _ rfl h.inv
  | raise hi => exact h.put (fun _ _ _ _ _ ha => nomatch ha) nofun
  | @step i c held eff waits takes write next hi hf =>
    obtain ⟨htakes, -, hnext⟩ := h.safe hi rfl s.world (Env.refl h.inv)
    refine h.put ?_ ?_
    · intro j u hj hne a ha b hb
      rcases List.mem_append.1 ha with ha | ha
      · rcases htakes a ha with hm | hw
        · exact .inl hm.1
        · refine .inr (.inr ?_)
          rw [Lock.symm]
          exact Sys.free_iff.1 hf j u hj hne b hb a hw
      · exact h.apart hi hj (Ne.symm hne) a ha b hb
    · rintro p ⟨⟩
      exact hnext
  | @commit i c held eff r hi =>
    obtain ⟨hinv, hstable⟩ := h.safe hi rfl s.world (Env.refl h.inv) i
    have hput : P.Watched ok (s.put i ⟨c, [], eff, .committed r⟩) :=
      h.put (fun _ _ _ _ _ ha => nomatch ha) nofun
    refine ⟨hinv, hput.apart, ?_⟩
    intro j u p hj hp
    have hj' := hj
    simp only [Sys.getElem?_put] at hj'
    split at hj'
    · cases hj'
      cases hp
    · next hij =>
      have hlt := (List.getElem?_eq_some_iff.1 hj').1
      have hne : i ≠ j := fun hij' => hij ⟨hij', hlt⟩
      have henv : P.Env u.held s.world (s.world.commit i c r eff) :=
        ⟨hinv, fun l hl => hstable l fun m hm => h.apart hi hj' hne m hm l hl⟩
      refine watch_env ?_ (h.safe hj' hp) henv
      intro b held eff w w' hs hw w₂ hw₂
      exact hs w₂ (hw.trans hw₂)
  | abort hi => exact h.put (fun _ _ _ _ _ ha => nomatch ha) nofun

theorem watched_init {d : Db} (h : P.Inv ⟨d, []⟩) :
    P.Watched ok (Sys.init d : Sys Db L Err Call Res) where
  inv := h
  apart hi := by simp [Sys.init] at hi
  safe hi := by simp [Sys.init] at hi

/-- **Every state of every run is watched**, if the calls that are started are. -/
theorem watched_run (h0 : P.Inv ⟨d, []⟩)
    (hbody : ∀ c w, .start c ∈ as → P.Inv w → P.watch (ok c) (body c) (P.Settles c) [] id w)
    (hrun : Run.run (Sys.step body) (Sys.init d) as = some s) : P.Watched ok s := by
  refine Run.run_of_forall (P := fun a => a ∈ as) (fun h ha hstep => ?_) (watched_init h0)
    (fun _ => id) hrun
  refine h.does (fun c w hc hw => ?_) (Sys.does_of_step hstep)
  exact hbody c w (hc ▸ ha) hw

/-- What a transaction waits for is as it was watched. -/
theorem Watched.waitsOver (h : P.Watched ok s) (hw : s.WaitsOver i j t u l m) :
    (ok t.call).waits t.held s.world l := by
  obtain ⟨waits, takes, write, next, hphase, hl⟩ := hw.waiting
  exact (h.safe hw.waiter hphase s.world (Env.refl h.inv)).2.1 l hl

/-- The marks that a step leaves are as they were watched. -/
theorem Watched.takes (h : P.Watched ok s) {i : Nat} {t : Tx Db L Err Call Res}
    {waits takes : Db → List L} {write : Db → Db → Db} {next : Db → Prog Db L Err Res}
    (hi : s.txns[i]? = some t) (hphase : t.phase = .running (.step waits takes write next)) {l : L}
    (hl : l ∈ takes (t.eff s.world.db)) :
    P.Mark l ∧ (ok t.call).marks t.held s.world l ∨ l ∈ waits (t.eff s.world.db) :=
  (h.safe hi hphase s.world (Env.refl h.inv)).1 l hl

end Runs

end Protocol

end Aegis.Txn
