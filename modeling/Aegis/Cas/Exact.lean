import Aegis.Cas.RefCount

/-!
# Invariant I-1

Calls served one after the other, each in a transaction of its own: is the count of every block the
number of manifest rows that name it? The header of `db/schema.sql` says so (`ref_count` is the
number of live rows of `file_manifest_blocks`), and that only the manifest triggers write it. The
triggers do keep it so, but `PgRegistry.EnsureBlock` inserts a row with `ref_count` 1 that no
manifest row stands for, and nothing ever takes that reference off again.
-/

namespace Aegis.Cas

open Db Stmt Ingress Txn Txn.Footprint Txn.Prog

/-- The database after a call served alone; a call that fails leaves it as it was. -/
def after (d : Db) (c : Call) : Db :=
  match c.body.alone d with
  | .ok (_, d') => d'
  | .error _ => d

/-- The database after a sequence of calls. -/
def serial (d : Db) (cs : List Call) : Db := cs.foldl after d

/-- Invariant I-1: every row of `cas_blocks` counts the manifest rows of its block. -/
def Exact (d : Db) : Prop := ∀ h c, d.refCount? h = some c → c = d.manifestCount h

/-- The call is an `EnsureBlock` that will insert a row: the hash has none yet, the size is one the
column admits and the tenant exists. -/
def introducesBlock (d : Db) : Call → Bool
  | .ensureBlock h tenantId sizeBytes _ =>
    !hasBlock h d && fitsInteger sizeBytes && decide (0 < sizeBytes) && hasTenant tenantId d
  | _ => false

/-- Some call of the sequence introduces a block in the database it is served on. -/
def introduces (d : Db) : List Call → Bool
  | [] => false
  | c :: cs => introducesBlock d c || introduces (after d c) cs

variable {P : Nat → Prop} {d : Db}

/-- A served call keeps the counts, if the slack it can leave is allowed. -/
theorem counted_after (hd : Counted P 0 d) (h0 : P 0)
    (h1 : ∀ h t size now, c = .ensureBlock h t size now → P 1) : Counted P 0 (after d c) := by
  have hrun := Triple.alone (w := ⟨d, []⟩) (call_spec h0 c h1) (fun _ hw => hw) hd
  rw [after]
  split at hrun
  · next hok =>
    obtain ⟨-, hd'⟩ := hrun
    rwa [show c.body.alone d = _ from hok]
  · next herr => rwa [show c.body.alone d = _ from herr]

/-- What an `EnsureBlock` served alone leaves: the new row if it introduces one, else nothing
new. -/
theorem after_ensureBlock (d : Db) (h : Hash) (t : Uuid) (size : Int) (now : Time) :
    after d (.ensureBlock h t size now) =
      if introducesBlock d (.ensureBlock h t size now) then
        d.insertBlock h ⟨t, size, .hot, 1, false, now⟩
      else d := by
  by_cases hfit : fitsInteger size = true
  · by_cases hpos : 0 < size
    · by_cases hb : hasBlock h d = true
      · simp [after, Call.body, ensureBlock, insertBlockRow, introducesBlock, alone_bind, hfit,
          hpos, hb]
      · have ht : hasTenant t (d.insertBlock h ⟨t, size, .hot, 1, false, now⟩) = hasTenant t d :=
          rfl
        by_cases htt : hasTenant t d = true
        · simp [after, Call.body, ensureBlock, insertBlockRow, introducesBlock, references,
            alone_bind, hfit, hpos, hb, ht, htt]
        · simp [after, Call.body, ensureBlock, insertBlockRow, introducesBlock, references,
            alone_bind, hfit, hpos, hb, ht, htt]
    · simp [after, Call.body, ensureBlock, insertBlockRow, introducesBlock, alone_bind, hfit, hpos]
  · simp [after, Call.body, ensureBlock, insertBlockRow, introducesBlock, alone_bind, hfit]

/-- A call that introduces no block keeps exact counts exact. -/
theorem counted_after_exact (hd : Counted (· = 0) 0 d) (hc : introducesBlock d c = false) :
    Counted (· = 0) 0 (after d c) := by
  cases c with
  | ensureBlock h t size now =>
    rw [after_ensureBlock, hc]
    exact hd
  | _ => exact counted_after hd rfl (by intro _ _ _ _ he; cases he)

/-- A call that introduces a block leaves a count of 1 for a hash that no manifest row names. -/
theorem not_exact_after (hd : Counted P 0 d) (hc : introducesBlock d c = true) :
    ¬ Exact (after d c) := by
  cases c with
  | ensureBlock h t size now =>
    intro hexact
    have hnone : d.refCount? h = none := by
      simp only [introducesBlock, Bool.and_eq_true, Bool.not_eq_true'] at hc
      simpa [hasBlock, refCount?] using hc.1.1.1
    have hrows : d.manifestCount h = 0 := hd.manifestCount_of_absent hnone
    rw [after_ensureBlock, if_pos hc] at hexact
    have h1 := hexact h 1 (by simp)
    rw [manifestCount_insertBlock, hrows] at h1
    cases h1
  | _ => cases hc

/-- Exact counts with no row for an unnamed hash are what `Counted` says without slack. -/
theorem Counted.exact (hd : Counted (· = 0) 0 d) : Exact d := by
  intro h c hc
  have h0 := hd h
  rw [hc] at h0
  obtain ⟨slack, rfl, hr⟩ := h0
  simpa using hr

/-- Along a sequence of calls from exact counts, I-1 holds throughout just if no call introduces a
block. -/
theorem exact_throughout_iff (hd : Counted (· = 0) 0 d) (cs : List Call) :
    (∀ pre, pre <+: cs → Exact (serial d pre)) ↔ introduces d cs = false := by
  induction cs generalizing d with
  | nil =>
    refine ⟨fun _ => rfl, ?_⟩
    rintro _ pre hpre
    rw [List.prefix_nil.1 hpre]
    exact hd.exact
  | cons c cs ih =>
    rw [introduces, Bool.or_eq_false_iff]
    constructor
    · intro hall
      have hc : introducesBlock d c = false := by
        rw [← Bool.not_eq_true]
        intro hc
        exact not_exact_after hd hc (hall [c] ⟨cs, rfl⟩)
      refine ⟨hc, (ih (counted_after_exact hd hc)).1 fun pre hpre => ?_⟩
      exact hall (c :: pre) (List.cons_prefix_cons.2 ⟨rfl, hpre⟩)
    · rintro ⟨hc, hcs⟩ pre hpre
      cases pre with
      | nil => exact hd.exact
      | cons c' pre =>
        obtain ⟨rfl, hrest⟩ := List.cons_prefix_cons.1 hpre
        exact (ih (counted_after_exact hd hc)).2 hcs pre hrest

/-- **I-1 holds after every prefix of a sequence of calls just if no `EnsureBlock` of the sequence
introduces a block.** -/
theorem exact_serial_iff (tenants : Table Uuid TenantRow) (nodes : Table Uuid NodeRow)
    (sessions : Table Uuid SessionRow) (cs : List Call) :
    (∀ pre, pre <+: cs → Exact (serial (Db.seed tenants nodes sessions) pre)) ↔
      introduces (Db.seed tenants nodes sessions) cs = false :=
  exact_throughout_iff (Counted.seed tenants nodes sessions) cs

/-- One `EnsureBlock` on a fresh database breaks I-1: a count of 1, and no manifest row. -/
theorem not_exact_ensureBlock :
    ¬ Exact (serial (Db.seed (AList.singleton 1 ⟨100, 0⟩) ∅ ∅) [.ensureBlock 5 1 4 0]) := by
  intro hexact
  have hcount : (serial (Db.seed (AList.singleton 1 ⟨100, 0⟩) ∅ ∅)
      [.ensureBlock 5 1 4 0]).refCount? 5 = some 1 := by decide +kernel
  have hrows : (serial (Db.seed (AList.singleton 1 ⟨100, 0⟩) ∅ ∅)
      [.ensureBlock 5 1 4 0]).manifestCount 5 = 0 := by decide +kernel
  have := hexact 5 1 hcount
  rw [hrows] at this
  cases this

end Aegis.Cas
