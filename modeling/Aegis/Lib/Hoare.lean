import Aegis.Lib.Rely

/-!
# Reasoning about one transaction by assertions

A `Footprint` says what part of the database each lock protects. For protocols given by a footprint
(`Footprint.protocol`) a transaction is verified by assertions about what it holds, the committed
world and its view of it, that no interference can falsify: `Triple A p B` takes every point where
`A` holds to a point where `B` holds. One rule covers all statements (`Triple.stmt`): a statement
may rely on the locks it takes for what it saw to stay so, and may change only what the locks held
by then protect.
-/

namespace Aegis.Txn

/-- The part of the database each lock protects, as a relation between databases that agree on
it, and which locks are marks. -/
structure Footprint (Db L : Type) where
  Agree : L → Db → Db → Prop
  Mark : L → Prop
  refl : ∀ l d, Agree l d d
  trans : ∀ {l a b c}, Agree l a b → Agree l b c → Agree l a c

namespace Footprint

/-- No lock protects anything: what is proved then of a transaction rests on its own writes. -/
def unprotected {Db L : Type} : Footprint Db L where
  Agree _ _ _ := True
  Mark _ := False
  refl _ _ := trivial
  trans _ _ := trivial

variable {Db L Err Call Res α β : Type} [Lock L] (F : Footprint Db L)

/-- Changes to the database that act on what a lock protects by what was there and by what `ls`
protect, and that touch nothing but what locks conflicting with one of `ls` protect. -/
structure Covered (ls : List L) (f : Db → Db) : Prop where
  loc : ∀ l d d', (∀ m ∈ ls, F.Agree m d d') → F.Agree l d d' → F.Agree l (f d) (f d')
  frame : ∀ l d, (∀ m ∈ ls, Lock.conflicts m l = false) → F.Agree l d (f d)

variable {F}

theorem Covered.id (ls : List L) : F.Covered ls id where
  loc := fun _ _ _ _ h => h
  frame := fun l d _ => F.refl l d

theorem Covered.mono {ls ls' : List L} {f : Db → Db} (hs : ls ⊆ ls') (h : F.Covered ls f) :
    F.Covered ls' f where
  loc := fun l d d' hls => h.loc l d d' fun m hm => hls m (hs hm)
  frame := fun l d hl => h.frame l d fun m hm => hl m (hs hm)

/-- Changes made under some locks, and then under others, are made under both. -/
theorem Covered.comp {ls ls' : List L} {f g : Db → Db} (hg : F.Covered ls' g)
    (hf : F.Covered ls f) : F.Covered (ls' ++ ls) fun d => g (f d) where
  loc := by
    intro l d d' hls hl
    have hloc : ∀ m, F.Agree m d d' → F.Agree m (f d) (f d') := fun m =>
      hf.loc m d d' fun k hk => hls k (List.mem_append_right _ hk)
    exact hg.loc l _ _ (fun m hm => hloc m (hls m (List.mem_append_left _ hm))) (hloc l hl)
  frame := fun l d hl => F.trans (hf.frame l d fun m hm => hl m (List.mem_append_right _ hm))
    (hg.frame l _ fun m hm => hl m (List.mem_append_left _ hm))

theorem covered_unprotected (ls : List L) (f : Db → Db) :
    (unprotected : Footprint Db L).Covered ls f :=
  ⟨fun _ _ _ _ _ => trivial, fun _ _ _ => trivial⟩

variable (F)

/-- The protocol of a footprint, an invariant and errors to exclude. -/
def protocol (Inv : World Db Call Res → Prop) (Excluded : Err → Prop) :
    Protocol Db L Err Call Res where
  Inv := Inv
  Stable := fun l w w' => F.Agree l w.db w'.db
  Mark := F.Mark
  Excluded := Excluded
  refl := fun l w => F.refl l w.db
  trans := F.trans

variable (Inv : World Db Call Res → Prop) (Excluded : Err → Prop)

/-- Assertion `A` about the locks, the world and the view holds now and under every
interference. -/
structure Keeps (A : List L → World Db Call Res → Db → Prop) (held : List L) (eff : Db → Db)
    (w : World Db Call Res) : Prop where
  inv : Inv w
  covered : F.Covered held eff
  holds : ∀ w', (F.protocol Inv Excluded).Env held w w' → A held w' (eff w'.db)

/-- `p` takes every point where `A` holds to a point where `B` holds, under every interference its
locks admit, and raises nothing excluded. -/
def Triple (A : List L → World Db Call Res → Db → Prop) (p : Prog Db L Err β)
    (B : β → List L → World Db Call Res → Db → Prop) : Prop :=
  ∀ ⦃held eff w⦄, F.Keeps Inv Excluded A held eff w →
    (F.protocol Inv Excluded).wp p (fun b => F.Keeps Inv Excluded (B b)) held eff w

variable {F Inv Excluded} {A A' : List L → World Db Call Res → Db → Prop}
  {B B' : β → List L → World Db Call Res → Db → Prop} {held : List L} {eff : Db → Db}
  {w w' : World Db Call Res}

theorem Keeps.now (h : F.Keeps Inv Excluded A held eff w) : A held w (eff w.db) :=
  h.holds w (Protocol.Env.refl h.inv)

theorem Keeps.env (h : F.Keeps Inv Excluded A held eff w)
    (hw : (F.protocol Inv Excluded).Env held w w') : F.Keeps Inv Excluded A held eff w' :=
  ⟨hw.1, h.covered, fun _ hw₂ => h.holds _ (hw.trans hw₂)⟩

theorem Keeps.mono (h : F.Keeps Inv Excluded A held eff w)
    (hA : ∀ w u, Inv w → A held w u → A' held w u) : F.Keeps Inv Excluded A' held eff w :=
  ⟨h.inv, h.covered, fun w' hw' => hA w' _ hw'.1 (h.holds w' hw')⟩

/-! ## Rules -/

namespace Triple

theorem ret (h : ∀ held w u, Inv w → A held w u → B b held w u) :
    F.Triple Inv Excluded A (.ret b : Prog Db L Err β) B := by
  intro held eff w hk
  exact hk.mono (h held)

variable {e : Err} {p : Prog Db L Err β}

theorem raise (h : ¬ Excluded e) : F.Triple Inv Excluded A (.raise e : Prog Db L Err β) B := by
  intro held eff w _
  exact h

theorem bind {p : Prog Db L Err α} {f : α → Prog Db L Err β}
    {M : α → List L → World Db Call Res → Db → Prop} (hp : F.Triple Inv Excluded A p M)
    (hf : ∀ a, F.Triple Inv Excluded (M a) (f a) B) : F.Triple Inv Excluded A (p.bind f) B := by
  intro held eff w hk
  refine (Protocol.wp_bind _ _).2 (Protocol.wp_mono (hp hk) ?_)
  intro a held' eff' w' hk'
  exact hf a hk'

/-- Consequence. -/
theorem conseq (h : F.Triple Inv Excluded A p B) (hA : ∀ held w u, Inv w → A' held w u → A held w u)
    (hB : ∀ b held w u, Inv w → B b held w u → B' b held w u) : F.Triple Inv Excluded A' p B' := by
  intro held eff w hk
  refine Protocol.wp_mono (h (hk.mono (hA held))) ?_
  intro b held' eff' w' hk'
  exact hk'.mono (hB b held')

theorem pre (h : F.Triple Inv Excluded A p B) (hA : ∀ held w u, Inv w → A' held w u → A held w u) :
    F.Triple Inv Excluded A' p B :=
  h.conseq hA fun _ _ _ _ _ hb => hb

theorem post (h : F.Triple Inv Excluded A p B)
    (hB : ∀ b held w u, Inv w → B b held w u → B' b held w u) : F.Triple Inv Excluded A p B' :=
  h.conseq (fun _ _ _ _ ha => ha) hB

/-- What does not depend on the locks, the world or the view may be assumed. -/
theorem assume (hA : ∀ held w u, Inv w → A held w u → φ) (h : φ → F.Triple Inv Excluded A p B) :
    F.Triple Inv Excluded A p B := by
  intro held eff w hk
  exact h (hA held w _ hk.inv hk.now) hk

theorem given (h : φ → F.Triple Inv Excluded A p B) :
    F.Triple Inv Excluded (fun held w u => φ ∧ A held w u) p B :=
  assume (fun _ _ _ _ ha => ha.1) fun hφ => (h hφ).pre fun _ _ _ _ ha => ha.2

/-- Frame: an assertion about the world that the held locks keep others from falsifying. -/
theorem frame {R : List L → World Db Call Res → Prop}
    (hR : ∀ {held held' w w'}, held ⊆ held' → Inv w' → (∀ l ∈ held, F.Agree l w.db w'.db) →
      R held w → R held' w') (h : F.Triple Inv Excluded A p B) :
    F.Triple Inv Excluded (fun held w u => A held w u ∧ R held w) p
      fun b held w u => B b held w u ∧ R held w := by
  have hstable : ∀ {held held' w w'}, held ⊆ held' → (F.protocol Inv Excluded).Env held w w' →
      R held w → R held' w' := fun hs hw => hR hs hw.1 hw.2
  intro held eff w hk
  refine Protocol.wp_mono (Protocol.wp_frame hstable (h (hk.mono fun _ _ _ ha => ha.1)) hk.now.2) ?_
  rintro b held' eff' w' ⟨hk', hr⟩
  exact ⟨hk'.inv, hk'.covered, fun w₂ hw₂ =>
    ⟨hk'.holds w₂ hw₂, hstable (List.Subset.refl _) hw₂ hr⟩⟩

/-- **Statements.** The write is covered by the locks held once the statement has taken its own;
what was seen under those locks stays so. -/
theorem stmt {waits takes : Db → List L} {write : Db → Db → Db}
    {B : Db → List L → World Db Call Res → Db → Prop}
    (hwaits : ∀ v, ∀ l ∈ takes v, F.Mark l ∨ l ∈ waits v)
    (hcov : ∀ held w v, Inv w → A held w v → F.Covered (takes v ++ held) (write v))
    (hB : ∀ held w v w' u, Inv w → A held w v → Inv w' → A held w' u →
      (∀ l ∈ takes v ++ held, F.Agree l w.db w'.db) → (∀ l ∈ takes v ++ held, F.Agree l v u) →
      B v (takes v ++ held) w' (write v u)) :
    F.Triple Inv Excluded A (.stmt waits takes write : Prog Db L Err Db) B := by
  intro held eff w hk w₁ hw₁
  have hk₁ := hk.env hw₁
  have hcov₁ := (hcov held w₁ _ hw₁.1 hk₁.now).comp hk.covered
  refine ⟨hwaits _, hw₁.1, hcov₁.mono (by simp), ?_⟩
  intro w₂ hw₂
  exact hB held w₁ _ w₂ _ hw₁.1 hk₁.now hw₂.1
    (hk₁.holds w₂ (hw₂.mono (List.subset_append_right _ _))) hw₂.2
    fun l hl => hk.covered.loc l _ _ (fun m hm => hw₂.2 m (List.mem_append_right _ hm)) (hw₂.2 l hl)

/-- Reading leaves the assertion as it is, and it holds of what was read. -/
theorem read {B : Db → List L → World Db Call Res → Db → Prop}
    (hB : ∀ held w v w' u, Inv w → A held w v → Inv w' → A held w' u →
      (∀ l ∈ held, F.Agree l w.db w'.db) → (∀ l ∈ held, F.Agree l v u) → B v held w' u) :
    F.Triple Inv Excluded A (.read : Prog Db L Err Db) B :=
  stmt (fun _ _ hl => .inr hl) (fun _ _ _ _ _ => Covered.id _) hB

/-- Taking locks and reading under them. -/
theorem acquire {B : Db → List L → World Db Call Res → Db → Prop}
    (hB : ∀ held w v w' u, Inv w → A held w v → Inv w' → A held w' u →
      (∀ l ∈ locks v ++ held, F.Agree l w.db w'.db) → (∀ l ∈ locks v ++ held, F.Agree l v u) →
      B v (locks v ++ held) w' u) : F.Triple Inv Excluded A (.acquire locks : Prog Db L Err Db) B :=
  stmt (fun _ _ hl => .inr hl) (fun _ _ _ _ _ => Covered.id _) hB

/-- **Programs that write elsewhere**: each write is covered by no locks at all and leaves the
assertion true. -/
theorem uses {W : (Db → Db) → Prop} (hp : p.Uses W) (hcov : ∀ f, W f → ∀ ls, F.Covered ls f)
    (hA : ∀ f, W f → ∀ {held held' w u}, held ⊆ held' → A held w u → A held' w (f u))
    (hexc : ∀ e, ¬ Excluded e) : F.Triple Inv Excluded A p fun _ => A := by
  induction p with
  | ret b => exact ret fun _ _ _ _ hu => hu
  | raise e => exact raise (hexc e)
  | step waits takes write next ih =>
    refine bind (p := .stmt waits takes write) (M := fun _ => A) (f := next) ?_
      fun v => ih v (hp v).2.2
    refine stmt (fun v l hl => .inr ((hp v).1 hl)) (fun _ _ v _ _ => hcov _ (hp v).2.1 _) ?_
    intro held w v w' u _ _ _ hu _ _
    exact hA _ (hp v).2.1 (List.subset_append_right _ _) hu

theorem check {B : Unit → List L → World Db Call Res → Db → Prop}
    (he : ∀ held w u, Inv w → A held w u → c = false → ¬ Excluded e)
    (hB : ∀ held w u, Inv w → A held w u → c = true → B () held w u) :
    F.Triple Inv Excluded A (.check c e : Prog Db L Err Unit) B := by
  intro held eff w hk
  refine Protocol.wp_check.2 ⟨fun hc => hk.mono fun w u hw hu => hB held w u hw hu hc, fun hc => ?_⟩
  exact he held w _ hk.inv hk.now hc

/-- A check that may fail: afterwards the condition is known. -/
theorem guard (he : ¬ Excluded e) :
    F.Triple Inv Excluded A (.check c e : Prog Db L Err Unit)
      fun _ held w u => c = true ∧ A held w u :=
  check (fun _ _ _ _ _ _ => he) fun _ _ _ _ hu hc => ⟨hc, hu⟩

/-- A check that may fail, and what follows it. -/
theorem checked {c : Bool} {f : Unit → Prog Db L Err β} (he : ¬ Excluded e)
    (hf : c = true → F.Triple Inv Excluded A (f ()) B) :
    F.Triple Inv Excluded A ((.check c e : Prog Db L Err Unit).bind f) B :=
  bind (guard he) fun _ => given hf

theorem ite [Decidable c] (hp : c → F.Triple Inv Excluded A p B)
    (hq : ¬ c → F.Triple Inv Excluded A q B) : F.Triple Inv Excluded A (if c then p else q) B := by
  split
  · next hc => exact hp hc
  · next hc => exact hq hc

/-- Loops. -/
theorem forEach {I : List α → List L → World Db Call Res → Db → Prop}
    (hround : ∀ a l, F.Triple Inv Excluded (I (a :: l)) (f a) fun _ => I l) (l : List α) :
    F.Triple Inv Excluded (I l) (.forEach l f) fun _ => I [] := by
  intro held eff w hk
  refine Protocol.wp_forEach (I := fun l _ => F.Keeps Inv Excluded (I l)) hk ?_
  intro a l held eff w hk
  exact hround a l hk

/-- Loops that collect results. -/
theorem collect {I : List α → List β → List L → World Db Call Res → Db → Prop}
    (hround : ∀ a l bs, F.Triple Inv Excluded (I (a :: l) bs) (f a) fun o => I l (bs ++ o.toList))
    (l : List α) : F.Triple Inv Excluded (I l []) (.collect l f) fun bs => I [] bs := by
  intro held eff w hk
  refine Protocol.wp_mono (Protocol.wp_collect (I := fun l bs => F.Keeps Inv Excluded (I l bs))
    [] hk ?_) ?_
  · intro a l bs held eff w hk
    exact hround a l bs hk
  · intro bs held' eff' w' hk'
    exact hk'

/-- A triple about databases alone holds for transactions of any calls and results. -/
theorem retype {I : Db → Prop} {A : Db → Prop} {B : β → Db → Prop}
    (h : F.Triple (fun w : World Db Call Res => I w.db) Excluded
      (fun _ _ u => A u) p fun b _ _ u => B b u) :
    F.Triple (fun w : World Db Call' Res' => I w.db) Excluded
      (fun _ _ u => A u) p fun b _ _ u => B b u := by
  intro held eff w hk
  have hk₀ : F.Keeps (fun w : World Db Call Res => I w.db) Excluded (fun _ _ u => A u) held eff
      ⟨w.db, []⟩ :=
    ⟨hk.inv, hk.covered, fun w' hw' => hk.holds ⟨w'.db, []⟩ hw'⟩
  refine Protocol.wp_retype (h hk₀) (fun _ => id) (fun _ => id) (fun hw => hw) ?_
  intro b held' eff' w' hk'
  exact ⟨hk'.inv, hk'.covered, fun w₁ hw₁ => hk'.holds ⟨w₁.db, []⟩ hw₁⟩

/-- **From a triple to a verified call**: it starts where the invariant holds and commits where the
invariant holds of the database it leaves. -/
theorem commits {p : Prog Db L Err Res} {B : Res → List L → World Db Call Res → Db → Prop}
    {c : Call} (h : F.Triple Inv Excluded A p B) (hA : ∀ w, Inv w → A [] w w.db)
    (hB : ∀ held w i r eff, Inv w → B r held w (eff w.db) → Inv (w.commit i c r eff))
    {w : World Db Call Res} (hw : Inv w) :
    (F.protocol Inv Excluded).wp p ((F.protocol Inv Excluded).Commits c) [] id w := by
  have hk : F.Keeps Inv Excluded A [] id w := ⟨hw, Covered.id _, fun w' hw' => hA w' hw'.1⟩
  refine Protocol.wp_mono (h hk) ?_
  intro r held eff w₁ hk₁ w₂ hw₂ i
  have hk₂ := hk₁.env hw₂
  exact ⟨hB held w₂ i r eff hk₂.inv hk₂.now, fun l hl => hk₂.covered.frame l _ hl⟩

/-- A verified program run alone ends where its postcondition holds of the database it leaves, or
raises nothing excluded. -/
theorem alone (h : F.Triple Inv Excluded A p B) (hA : ∀ w, Inv w → A [] w w.db) (hw : Inv w) :
    match p.alone w.db with
    | .ok (b, d) => ∃ held, B b held w d
    | .error e => ¬ Excluded e := by
  have hk : F.Keeps Inv Excluded A [] id w := ⟨hw, Covered.id _, fun w' hw' => hA w' hw'.1⟩
  have ha := Protocol.wp_alone (h hk) hw
  split at ha
  · next b d hd =>
    obtain ⟨held', eff', rfl, hb⟩ := ha
    rw [show p.alone w.db = .ok (b, _) from hd]
    exact ⟨held', hb.now⟩
  · next e hd =>
    rw [show p.alone w.db = .error e from hd]
    exact ha

end Triple

end Footprint

end Aegis.Txn
