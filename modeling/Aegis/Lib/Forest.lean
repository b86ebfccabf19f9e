import Mathlib.Tactic

/-!
# Forests with stored paths

A forest over keys in which every node stores, besides its parent, the path of labels that leads to
it from its root. `Lined` says that the stored paths are the right ones. If labels tell keys apart,
then one path begins with another just if the other's node is an ancestor (`Lined.isPrefix_iff`),
and no node is its own ancestor (`Lined.acyclic`). Adding a leaf or a root, removing a node without
children, and moving a subtree somewhere outside itself with its paths rewritten (`graft`) keep a
forest lined.
-/

namespace Aegis

/-- For every key that is a node: its parent, if it is not a root, and the stored path. -/
abbrev Forest (K L : Type) : Type := K → Option (Option K × List L)

namespace Forest

variable {K L : Type} {label : K → L} {f : Forest K L} {x y p src dst : K} {o : Option K}
  {path path' sp dp : List L}

/-- `p` is the parent of `x`. -/
def Child (f : Forest K L) (x p : K) : Prop := ∃ path, f x = some (some p, path)

/-- Every stored path is the path of its node: the label of a root, the path of the parent followed
by the own label otherwise. -/
structure Lined (label : K → L) (f : Forest K L) : Prop where
  root : ∀ {x path}, f x = some (none, path) → path = [label x]
  child : ∀ {x p path}, f x = some (some p, path) →
    ∃ o path', f p = some (o, path') ∧ path = path' ++ [label x]

/-- A path ends with the label of its node. -/
theorem Lined.last (h : Lined label f) (hx : f x = some (o, path)) :
    ∃ init, path = init ++ [label x] := by
  cases o with
  | none => exact ⟨[], h.root hx⟩
  | some p =>
    obtain ⟨o, path', -, hpath⟩ := h.child hx
    exact ⟨path', hpath⟩

/-- The path of a parent is shorter. -/
theorem Lined.length_lt (h : Lined label f) (hx : f x = some (some p, path))
    (hp : f p = some (o, path')) : path'.length < path.length := by
  obtain ⟨o', path'', hp', rfl⟩ := h.child hx
  cases hp.symm.trans hp'
  simp

/-- What begins the path of a parent begins the path of its children. -/
theorem Lined.isPrefix_child (h : Lined label f) (hx : f x = some (some p, path))
    (hp : f p = some (o, path')) (hs : sp <+: path') : sp <+: path := by
  obtain ⟨o', path'', hp', rfl⟩ := h.child hx
  cases hp.symm.trans hp'
  exact hs.trans (List.prefix_append _ _)

section Injective

variable (hl : Function.Injective label)
include hl

/-- If the path of `src` begins the path of another node, then that node has a parent whose path
begins so, too. -/
theorem Lined.isPrefix_parent (h : Lined label f) (hsrc : f src = some (o, sp))
    (hx : f x = some (o', path)) (hs : sp <+: path) (hne : x ≠ src) :
    ∃ p o'' path', o' = some p ∧ f p = some (o'', path') ∧ path = path' ++ [label x] ∧
      sp <+: path' := by
  obtain ⟨init, rfl⟩ := h.last hsrc
  have hlast : ∀ {pre : List L}, init ++ [label src] ≠ pre ++ [label x] := by
    intro pre heq
    have := (List.append_inj' heq rfl).2
    exact hne (hl (List.cons.inj this).1).symm
  cases o' with
  | none =>
    rw [h.root hx, ← List.nil_append [label x], List.prefix_concat_iff] at hs
    rcases hs with hs | hs
    · exact absurd hs hlast
    · exact absurd (List.prefix_nil.1 hs) (by simp)
  | some p =>
    obtain ⟨o'', path', hp, rfl⟩ := h.child hx
    rcases List.prefix_concat_iff.1 hs with hs | hs
    · exact absurd hs hlast
    · exact ⟨p, o'', path', rfl, hp, rfl, hs⟩

/-- What holds at the root of a subtree and passes from parents to children within it holds in all
of it. -/
theorem Lined.subtree_induction (h : Lined label f) (hsrc : f src = some (o, sp)) {P : K → Prop}
    (hroot : P src)
    (hchild : ∀ x p o path path', f x = some (some p, path) → f p = some (o, path') →
      sp <+: path' → P p → P x) (hx : f x = some (o', path)) (hs : sp <+: path) : P x := by
  -- on the length of the path, which falls towards `src`
  induction hn : path.length using Nat.strong_induction_on generalizing x o' path with
  | _ n ih =>
    by_cases hne : x = src
    · exact hne ▸ hroot
    · obtain ⟨p, o'', path', rfl, hp, rfl, hs'⟩ := h.isPrefix_parent hl hsrc hx hs hne
      refine hchild x p o'' _ path' hx hp hs' (ih path'.length ?_ hp hs' rfl)
      rw [← hn]
      simp

/-- **Prefixes are ancestors.** The path of a node begins with the path of `y` just if `y` is the
node itself or one of its ancestors. -/
theorem Lined.isPrefix_iff (h : Lined label f) (hx : f x = some (o, path))
    (hy : f y = some (o', path')) : path' <+: path ↔ Relation.ReflTransGen (Child f) x y := by
  constructor
  · intro hs
    refine h.subtree_induction hl hy (P := fun x => Relation.ReflTransGen (Child f) x y) .refl ?_ hx
      hs
    intro x p _ path _ hx _ _ hp
    exact .head ⟨path, hx⟩ hp
  · intro hr
    induction hr using Relation.ReflTransGen.head_induction_on generalizing o path with
    | refl =>
      cases hx.symm.trans hy
      exact List.prefix_refl _
    | @head x p hxp _ ih =>
      obtain ⟨path'', hx'⟩ := hxp
      cases hx.symm.trans hx'
      obtain ⟨o'', pp, hp, -⟩ := h.child hx
      exact h.isPrefix_child hx hp (ih hp)

end Injective

/-- **No node is its own ancestor.** -/
theorem Lined.acyclic (h : Lined label f) (x : K) : ¬ Relation.TransGen (Child f) x x := by
  have hlt : ∀ {x y}, Relation.TransGen (Child f) x y → ∃ o o' path path',
      f x = some (o, path) ∧ f y = some (o', path') ∧ path'.length < path.length := by
    intro x y hr
    induction hr with
    | @single y hxy =>
      obtain ⟨path, hx⟩ := hxy
      obtain ⟨o, path', hy, -⟩ := h.child hx
      exact ⟨_, _, _, _, hx, hy, h.length_lt hx hy⟩
    | @tail y z _ hyz ih =>
      obtain ⟨o, o', path, path', hx, hy, hxy⟩ := ih
      obtain ⟨path'', hy'⟩ := hyz
      cases hy.symm.trans hy'
      obtain ⟨o'', pz, hz, -⟩ := h.child hy
      exact ⟨_, _, _, _, hx, hz, (h.length_lt hy hz).trans hxy⟩
  intro hr
  obtain ⟨o, o', path, path', hx, hx', hlen⟩ := hlt hr
  cases hx.symm.trans hx'
  exact lt_irrefl _ hlen

/-- The labels on a path are those of the node and its ancestors. -/
theorem Lined.exists_of_mem (h : Lined label f) (hx : f x = some (o, path)) (ha : a ∈ path) :
    ∃ y, label y = a ∧ Relation.ReflTransGen (Child f) x y := by
  -- on the length of the path, which falls towards the root
  induction hn : path.length using Nat.strong_induction_on generalizing x o path with
  | _ n ih =>
    cases o with
    | none =>
      rw [h.root hx, List.mem_singleton] at ha
      exact ⟨x, ha.symm, .refl⟩
    | some p =>
      obtain ⟨o', path', hp, rfl⟩ := h.child hx
      rcases List.mem_append.1 ha with ha | ha
      · obtain ⟨y, hy, hpy⟩ := ih path'.length (by simp [← hn]) hp ha rfl
        exact ⟨y, hy, .head ⟨_, hx⟩ hpy⟩
      · exact ⟨x, (List.mem_singleton.1 ha).symm, .refl⟩

/-- A path has the label of its node at its end only. -/
theorem Lined.last_notMem (hl : Function.Injective label) (h : Lined label f)
    (hx : f x = some (o, path)) : ∃ init, path = init ++ [label x] ∧ label x ∉ init := by
  cases o with
  | none => exact ⟨[], h.root hx, List.not_mem_nil⟩
  | some p =>
    obtain ⟨o', path', hp, hpath⟩ := h.child hx
    refine ⟨path', hpath, fun hmem => ?_⟩
    obtain ⟨y, hy, hpy⟩ := h.exists_of_mem hp hmem
    rw [hl hy] at hpy
    exact h.acyclic x (.head' ⟨path, hx⟩ hpy)

section Changes

variable [DecidableEq K]

/-- A node of a forest that has been changed at `x`. -/
theorem of_update {r : Option K × List L} (h : Function.update f x v y = some r) :
    y = x ∧ v = some r ∨ y ≠ x ∧ f y = some r := by
  rcases eq_or_ne y x with rfl | hne
  · rw [Function.update_self] at h
    exact .inl ⟨rfl, h⟩
  · rw [Function.update_of_ne hne] at h
    exact .inr ⟨hne, h⟩

/-- A new root or a new leaf. -/
theorem Lined.insert (h : Lined label f) (hx : f x = none) (hroot : o = none → path = [label x])
    (hchild : ∀ p, o = some p → ∃ o' path', f p = some (o', path') ∧ path = path' ++ [label x]) :
    Lined label (Function.update f x (some (o, path))) where
  root := by
    intro y path hy
    rcases of_update hy with ⟨rfl, ⟨⟩⟩ | ⟨-, hy⟩
    · exact hroot rfl
    · exact h.root hy
  child := by
    intro y p path hy
    have hold : ∃ o' path', f p = some (o', path') ∧ path = path' ++ [label y] := by
      rcases of_update hy with ⟨rfl, ⟨⟩⟩ | ⟨-, hy⟩
      · exact hchild p rfl
      · exact h.child hy
    obtain ⟨o', path', hp, hpath⟩ := hold
    refine ⟨o', path', ?_, hpath⟩
    rwa [Function.update_of_ne (by rintro rfl; rw [hx] at hp; cases hp)]

/-- A node without children is gone. -/
theorem Lined.erase (h : Lined label f) (hx : ∀ y, ¬ Child f y x) :
    Lined label (Function.update f x none) where
  root := by
    intro y path hy
    rcases of_update hy with ⟨-, ⟨⟩⟩ | ⟨-, hy⟩
    exact h.root hy
  child := by
    intro y p path hy
    rcases of_update hy with ⟨-, ⟨⟩⟩ | ⟨-, hold⟩
    obtain ⟨o, path', hp, hpath⟩ := h.child hold
    refine ⟨o, path', ?_, hpath⟩
    rwa [Function.update_of_ne (by rintro rfl; exact hx y ⟨path, hold⟩)]

variable [DecidableEq L]

/-- Move the subtree of `src`, whose path is `sp`, under `dst`, whose path is `dp`: every path in it
is rewritten to begin with the new path of `src`. -/
def graft (label : K → L) (src dst : K) (sp dp : List L) (f : Forest K L) : Forest K L := fun x =>
  (f x).map fun (o, path) =>
    if sp <+: path then
      (if x = src then some dst else o, dp ++ [label src] ++ path.drop sp.length)
    else (o, path)

theorem graft_outside (hx : f x = some (o, path)) (hs : ¬ sp <+: path) :
    graft label src dst sp dp f x = some (o, path) := by
  simp [graft, hx, hs]

theorem graft_inside (hx : f x = some (o, path)) (hs : sp <+: path) :
    graft label src dst sp dp f x =
      some (if x = src then some dst else o, dp ++ [label src] ++ path.drop sp.length) := by
  simp [graft, hx, hs]

/-- **Moving a subtree** to a place outside itself keeps the forest lined. -/
theorem Lined.graft (hl : Function.Injective label) (h : Lined label f)
    (hsrc : f src = some (o, sp)) (hdst : f dst = some (o', dp)) (hout : ¬ sp <+: dp) :
    Lined label (graft label src dst sp dp f) := by
  have hcases : ∀ {x r}, Forest.graft label src dst sp dp f x = some r →
      ∃ o path, f x = some (o, path) := by
    intro x r hx
    obtain ⟨⟨o, path⟩, hfx, -⟩ := Option.map_eq_some_iff.1 hx
    exact ⟨o, path, hfx⟩
  constructor
  · intro x path' hx
    obtain ⟨o, path, hfx⟩ := hcases hx
    by_cases hs : sp <+: path
    · rw [graft_inside hfx hs] at hx
      by_cases hne : x = src
      · simp [hne] at hx
      · obtain ⟨p, -, -, rfl, -, -, -⟩ := h.isPrefix_parent hl hsrc hfx hs hne
        simp [hne] at hx
    · rw [graft_outside hfx hs] at hx
      cases hx
      exact h.root hfx
  · intro x p path' hx
    obtain ⟨o, path, hfx⟩ := hcases hx
    by_cases hs : sp <+: path
    · rw [graft_inside hfx hs] at hx
      by_cases hne : x = src
      · subst hne
        cases hsrc.symm.trans hfx
        rw [if_pos rfl] at hx
        cases hx
        exact ⟨o', dp, graft_outside hdst hout, by simp⟩
      · obtain ⟨q, o'', pq, rfl, hq, rfl, hsq⟩ := h.isPrefix_parent hl hsrc hfx hs hne
        rw [if_neg hne] at hx
        cases hx
        refine ⟨_, _, graft_inside hq hsq, ?_⟩
        rw [List.drop_append_of_le_length hsq.length_le, List.append_assoc, List.append_assoc,
          List.append_assoc]
    · rw [graft_outside hfx hs] at hx
      cases hx
      obtain ⟨o'', pq, hq, rfl⟩ := h.child hfx
      exact ⟨o'', pq, graft_outside hq fun hsq => hs (hsq.trans (List.prefix_append _ _)), rfl⟩

end Changes

end Forest

end Aegis
