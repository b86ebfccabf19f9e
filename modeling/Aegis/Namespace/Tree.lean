import Aegis.Namespace.Procedures
import Aegis.Lib.Forest

/-!
# The namespace as a tree

Invariant I-2e of `namespace_nodes` and what goes with it: every stored path is the path of its
node, and every parent is a directory of the same tenant (`Tree`). The changes that INSERT, DELETE
and `move_directory` make to the table as a whole keep it; a move is the `graft` of the library.
-/

namespace Aegis

/-- **Labels are unique to their nodes.** -/
theorem Uuid.nodeLabel_injective : Function.Injective Uuid.nodeLabel := by
  intro u u' h
  rw [nodeLabel_eq_grouped, nodeLabel_eq_grouped] at h
  exact grouped_inj (by decide) h

variable {n : Uuid} {r : NodeRow}

namespace Db

/-- `namespace_nodes` as a forest with stored paths. -/
def forest (d : Db) : Forest Uuid (List Char) := fun n =>
  (d.nodes.lookup n).map fun r => (r.parentId, r.lineagePath)

variable {d : Db}

theorem forest_eq_some :
    d.forest n = some (o, path) ↔
      ∃ r, d.nodes.lookup n = some r ∧ r.parentId = o ∧ r.lineagePath = path := by
  simp [forest, Option.map_eq_some_iff]

theorem forest_of_lookup (h : d.nodes.lookup n = some r) :
    d.forest n = some (r.parentId, r.lineagePath) := by
  rw [forest, h, Option.map_some]

theorem forest_child :
    Forest.Child d.forest n p ↔ ∃ r, d.nodes.lookup n = some r ∧ r.parentId = some p := by
  constructor
  · rintro ⟨path, h⟩
    obtain ⟨r, hr, hp, -⟩ := forest_eq_some.1 h
    exact ⟨r, hr, hp⟩
  · rintro ⟨r, hr, hp⟩
    exact ⟨r.lineagePath, by rw [forest_of_lookup hr, hp]⟩

theorem lookup_insertNode (n : Uuid) (r : NodeRow) (d : Db) (n' : Uuid) :
    (d.insertNode n r).nodes.lookup n' =
      if n' = n then some ((d.nodes.lookup n').getD r) else d.nodes.lookup n' :=
  Table.lookup_insertNew n n' r d.nodes

theorem lookup_setLineage (x n : Uuid) (q : Option Uuid) (path : LTree) (v : Db) :
    (setLineage x q path v).nodes.lookup n =
      if n = x then (v.nodes.lookup n).map fun r =>
        { r with parentId := q.or r.parentId, lineagePath := path, aclEpoch := r.aclEpoch + 1 }
      else v.nodes.lookup n :=
  Table.lookup_modify x n _ v.nodes

/-- Invariant I-2e as a check of the table: the path of every node is the path of its parent
followed by its own label, and the path of a root is its label. -/
def pathsExact (d : Db) : Bool := d.nodes.entries.all fun e =>
  match e.2.parentId with
  | none => e.2.lineagePath == [e.1.nodeLabel]
  | some p =>
    (d.nodes.lookup p).any fun parent => e.2.lineagePath == parent.lineagePath ++ [e.1.nodeLabel]

theorem pathsExact_iff : d.pathsExact = true ↔ Forest.Lined Uuid.nodeLabel d.forest := by
  rw [pathsExact, List.all_eq_true]
  constructor
  · intro h
    constructor
    · intro n path hn
      obtain ⟨r, hr, hp, rfl⟩ := forest_eq_some.1 hn
      simpa [hp] using h ⟨n, r⟩ (Table.mem_entries.2 hr)
    · intro n p path hn
      obtain ⟨r, hr, hp, rfl⟩ := forest_eq_some.1 hn
      have hparent := h ⟨n, r⟩ (Table.mem_entries.2 hr)
      simp only [hp, Option.any_eq_true, beq_iff_eq] at hparent
      obtain ⟨pr, hpr, hpath⟩ := hparent
      exact ⟨pr.parentId, pr.lineagePath, forest_of_lookup hpr, hpath⟩
  · rintro h ⟨n, r⟩ hr
    have hn := forest_of_lookup (Table.mem_entries.1 hr)
    cases hp : r.parentId with
    | none =>
      rw [hp] at hn
      simp [h.root hn]
    | some p =>
      rw [hp] at hn
      obtain ⟨o, path, hpath, hr⟩ := h.child hn
      obtain ⟨pr, hpr, -, rfl⟩ := forest_eq_some.1 hpath
      simp [hpr, hr]

end Db

namespace Namespace

open Db

/-- **Invariant I-2e**: paths are right, and parents are directories of the tenant. -/
structure Tree (d : Db) : Prop where
  lined : Forest.Lined Uuid.nodeLabel d.forest
  parent : ∀ {n p r}, d.nodes.lookup n = some r → r.parentId = some p →
    ∃ pr, d.nodes.lookup p = some pr ∧ pr.type = .directory ∧ pr.tenantId = r.tenantId

variable {d d' : Db}

theorem tree_seed (tenants : Table Uuid TenantRow) (sessions : Table Uuid SessionRow) :
    Tree (Db.seed tenants ∅ sessions) :=
  ⟨⟨nofun, nofun⟩, nofun⟩

/-- Parents, paths, types and tenants are as they were. -/
def SameShape (d d' : Db) : Prop :=
  ∀ n, (d'.nodes.lookup n).map (fun r => (r.parentId, r.lineagePath, r.type, r.tenantId)) =
    (d.nodes.lookup n).map fun r => (r.parentId, r.lineagePath, r.type, r.tenantId)

/-- Nothing but parents, types, tenants and paths matters. -/
theorem Tree.congr (h : Tree d) (hd : SameShape d d') : Tree d' := by
  have hforest : d'.forest = d.forest := by
    funext n
    have := congrArg (Option.map fun x : Option Uuid × LTree × NodeType × Uuid => (x.1, x.2.1))
      (hd n)
    simpa [forest, Option.map_map, Function.comp_def] using this
  have hrow : ∀ {d d' : Db}, SameShape d d' → ∀ {n r}, d.nodes.lookup n = some r →
      ∃ r', d'.nodes.lookup n = some r' ∧ r'.parentId = r.parentId ∧ r'.type = r.type ∧
        r'.tenantId = r.tenantId := by
    intro d d' hd n r hr
    have h := hd n
    rw [hr, Option.map_some] at h
    obtain ⟨r', hr', heq⟩ := Option.map_eq_some_iff.1 h
    simp only [Prod.mk.injEq] at heq
    exact ⟨r', hr', heq.1, heq.2.2.1, heq.2.2.2⟩
  refine ⟨hforest ▸ h.lined, ?_⟩
  intro n p r hr hp
  obtain ⟨r₀, hr₀, hp₀, -, ht₀⟩ := hrow (fun n => (hd n).symm) hr
  obtain ⟨pr, hpr, hdir, hten⟩ := h.parent hr₀ (hp₀.trans hp)
  obtain ⟨pr', hpr', -, htype, hten'⟩ := hrow hd hpr
  exact ⟨pr', hpr', htype.trans hdir, by rw [hten', hten, ht₀]⟩

/-! ## New nodes -/

/-- A place in the tree for a node: its own root, or under a directory of its tenant, with the path
that goes with it. -/
def Placed (d : Db) (n tenantId : Uuid) : Option Uuid → LTree → Prop
  | none, path => path = [n.nodeLabel]
  | some p, path => ∃ r, d.nodes.lookup p = some r ∧ r.tenantId = tenantId ∧
      r.type = .directory ∧ path = r.lineagePath ++ [n.nodeLabel]

/-- A new node in its place. -/
theorem Tree.insertNode (h : Tree d) (hnew : d.nodes.lookup n = none)
    (hplace : Placed d n r.tenantId r.parentId r.lineagePath)
    (hd : ∀ x, d'.nodes.lookup x = if x = n then some r else d.nodes.lookup x) : Tree d' := by
  have hforest : d'.forest =
      Function.update d.forest n (some (r.parentId, r.lineagePath)) := by
    funext x
    rw [forest, hd, Function.update_apply]
    split
    · rfl
    · rfl
  have habsent : d.forest n = none := by rw [forest, hnew]; rfl
  have hkeep : ∀ {p pr}, d.nodes.lookup p = some pr → d'.nodes.lookup p = some pr := by
    intro p pr hp
    rw [hd, if_neg (by rintro rfl; rw [hnew] at hp; cases hp), hp]
  constructor
  · rw [hforest]
    refine h.lined.insert habsent (fun hroot => ?_) fun p hp => ?_
    · rw [hroot] at hplace
      exact hplace
    · rw [hp] at hplace
      obtain ⟨pr, hpr, -, -, hpath⟩ := hplace
      exact ⟨_, _, forest_of_lookup hpr, hpath⟩
  · intro x p r' hx hp
    rw [hd] at hx
    split at hx
    · cases hx
      rw [hp] at hplace
      obtain ⟨pr, hpr, hten, hdir, -⟩ := hplace
      exact ⟨pr, hkeep hpr, hdir, hten⟩
    · obtain ⟨pr, hpr, hdir, hten⟩ := h.parent hx hp
      exact ⟨pr, hkeep hpr, hdir, hten⟩

/-- A node without children is deleted. -/
theorem Tree.eraseNode (h : Tree d) (hleaf : ∀ x, ¬ Forest.Child d.forest x n)
    (hd : ∀ x, d'.nodes.lookup x = if x = n then none else d.nodes.lookup x) : Tree d' := by
  have hforest : d'.forest = Function.update d.forest n none := by
    funext x
    rw [forest, hd, Function.update_apply]
    split
    · rfl
    · rfl
  constructor
  · rw [hforest]
    exact h.lined.erase hleaf
  · intro x p r hx hp
    rw [hd] at hx
    split at hx
    · cases hx
    · obtain ⟨pr, hpr, hdir, hten⟩ := h.parent hx hp
      refine ⟨pr, ?_, hdir, hten⟩
      rw [hd, if_neg, hpr]
      rintro rfl
      exact hleaf x (forest_child.2 ⟨r, hx, hp⟩)

/-! ## Moves -/

/-- A row of the subtree of `src` after the move under `dst`. -/
def remapped (src dst : Uuid) (srcPath dstPath : LTree) (n : Uuid) (r : NodeRow) : NodeRow :=
  { r with
    parentId := if n = src then some dst else r.parentId
    lineagePath := dstPath ++ [src.nodeLabel] ++ r.lineagePath.drop srcPath.length
    aclEpoch := r.aclEpoch + 1 }

section Move

variable {src dst : Uuid} {s t : NodeRow} (h : Tree d) (hsrc : d.nodes.lookup src = some s)
include h hsrc

/-- What holds at `src` and passes to children holds wherever a path begins with that of `src`. -/
theorem Tree.subtree_induction {P : Uuid → NodeRow → Prop} (hroot : P src s)
    (hchild : ∀ {x p r pr}, d.nodes.lookup x = some r → r.parentId = some p →
      d.nodes.lookup p = some pr → pr.tenantId = r.tenantId → P p pr → P x r)
    (hx : d.nodes.lookup x = some r) (hs : s.lineagePath <+: r.lineagePath) : P x r := by
  refine h.lined.subtree_induction Uuid.nodeLabel_injective (forest_of_lookup hsrc)
    (P := fun x => ∀ r, d.nodes.lookup x = some r → P x r) ?_ ?_ (forest_of_lookup hx) hs r hx
  · intro r hr
    cases hsrc.symm.trans hr
    exact hroot
  · intro x p o path path' hx hp _ ih r hr
    obtain ⟨r', hr', hp', -⟩ := forest_eq_some.1 hx
    cases hr.symm.trans hr'
    obtain ⟨pr, hpr, -, hten⟩ := h.parent hr hp'
    exact hchild hr hp' hpr hten (ih pr hpr)

/-- A subtree belongs to one tenant. -/
theorem Tree.tenant_of_subtree (hx : d.nodes.lookup x = some r)
    (hs : s.lineagePath <+: r.lineagePath) : r.tenantId = s.tenantId :=
  h.subtree_induction hsrc (P := fun _ r => r.tenantId = s.tenantId) rfl
    (fun _ _ _ hten hp => hten.symm.trans hp) hx hs

/-- **A move keeps the tree**: the whole subtree, and nothing else, is rewritten. -/
theorem Tree.move (hdst : d.nodes.lookup dst = some t) (hdir : t.type = .directory)
    (hten : t.tenantId = s.tenantId) (hout : ¬ s.lineagePath <+: t.lineagePath)
    (hd : ∀ x, d'.nodes.lookup x = (d.nodes.lookup x).map fun r =>
      if s.lineagePath <+: r.lineagePath then
        remapped src dst s.lineagePath t.lineagePath x r else r) : Tree d' := by
  have hforest : d'.forest = Forest.graft Uuid.nodeLabel src dst s.lineagePath t.lineagePath
      d.forest := by
    funext x
    rw [forest, hd, Forest.graft, forest, Option.map_map, Option.map_map]
    congr 1
    funext r
    simp only [Function.comp_apply]
    split
    · rfl
    · rfl
  have hkeep : ∀ {p pr}, d.nodes.lookup p = some pr → ∃ pr', d'.nodes.lookup p = some pr' ∧
      pr'.type = pr.type ∧ pr'.tenantId = pr.tenantId := by
    intro p pr hp
    rw [hd, hp, Option.map_some]
    split
    · exact ⟨_, rfl, rfl, rfl⟩
    · exact ⟨_, rfl, rfl, rfl⟩
  constructor
  · rw [hforest]
    exact h.lined.graft Uuid.nodeLabel_injective (forest_of_lookup hsrc)
      (forest_of_lookup hdst) hout
  · intro x p r' hx hp
    rw [hd] at hx
    obtain ⟨r, hr, rfl⟩ := Option.map_eq_some_iff.1 hx
    -- either the old parent, or `dst` for the moved node
    have hold : r.parentId = some p → ∃ pr, d'.nodes.lookup p = some pr ∧ pr.type = .directory ∧
        pr.tenantId = r.tenantId := by
      intro hp
      obtain ⟨pr, hpr, hdir, hten⟩ := h.parent hr hp
      obtain ⟨pr', hpr', htype', hten'⟩ := hkeep hpr
      exact ⟨pr', hpr', htype'.trans hdir, hten'.trans hten⟩
    split at hp
    · next hs =>
      rw [if_pos hs]
      show ∃ pr, d'.nodes.lookup p = some pr ∧ pr.type = .directory ∧ pr.tenantId = r.tenantId
      by_cases hxs : x = src
      · simp only [remapped, hxs, if_true, Option.some.injEq] at hp
        subst hp
        obtain ⟨t', ht', htype', hten'⟩ := hkeep hdst
        exact ⟨t', ht', htype'.trans hdir, by
          rw [hten', hten, h.tenant_of_subtree hsrc hr hs]⟩
      · simp only [remapped, hxs, if_false] at hp
        exact hold hp
    · next hs =>
      rw [if_neg hs]
      exact hold hp

end Move

end Namespace

end Aegis
