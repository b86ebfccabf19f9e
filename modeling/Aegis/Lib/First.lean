import Mathlib.Tactic

/-!
# The first hit in a range

`Found f lo hi r` says that a search of the positions after `lo` up to `hi` answered the first where
`f` holds, if there is one; searches of neighbouring ranges add up to one of both (`Found.append`).
`First f lo hi n` is the same with `hi` for no answer. Two searches of one range answer alike
exactly when their tests agree wherever neither has hit before (`First.eq_iff`).

`TwoPass f g avg max k n` is a search of `k` positions that goes over them a second time, with
another test, once it has got to `avg` without a hit. It stops at the same position in a shorter and
in a longer range exactly when it is `Settled` in the shorter.
-/

namespace Aegis

/-- `n` is the first position in `(lo, hi)` where `f` holds, or `hi`. -/
structure First (f : Nat → Prop) (lo hi n : Nat) : Prop where
  gt : lo < n
  le : n ≤ hi
  before : ∀ p, lo < p → p < n → ¬ f p
  hit : n < hi → f n

namespace First

variable {f g : Nat → Prop} {lo hi n m : Nat}

/-- The tests of two searches agree at `p`, if the searches get there. -/
def AgreeAt (f g : Nat → Prop) (lo p : Nat) : Prop :=
  (∀ q, lo < q → q < p → ¬ f q ∧ ¬ g q) → (f p ↔ g p)

theorem not_lt_of_agreeAt (hf : First f lo hi n) (hg : First g lo hi m)
    (h : ∀ p, lo < p → p < hi → AgreeAt f g lo p) : ¬ n < m := by
  intro hlt
  have hn := hf.hit (hlt.trans_le hg.le)
  have hagree := h n hf.gt (hlt.trans_le hg.le) fun q hq hqn =>
    ⟨hf.before q hq hqn, hg.before q hq (hqn.trans hlt)⟩
  exact hg.before n hf.gt hlt (hagree.1 hn)

/-- A search that hits at `p` first, answers `p`. -/
theorem eq_of_hit (hf : First f lo hi n) (hp : lo < p) (hlt : p < hi)
    (hbefore : ∀ q, lo < q → q < p → ¬ f q) (hhit : f p) : n = p := by
  rcases Nat.lt_trichotomy n p with h | h | h
  · exact absurd (hf.hit (h.trans hlt)) (hbefore n hf.gt h)
  · exact h
  · exact absurd hhit (hf.before p hp h)

/-- **Two searches answer alike** exactly when their tests agree at every position both get to. -/
theorem eq_iff (hf : First f lo hi n) (hg : First g lo hi m) :
    n = m ↔ ∀ p, lo < p → p < hi → AgreeAt f g lo p := by
  constructor
  · rintro rfl p hp hlt hbefore
    constructor
    · intro hhit
      have heq := hf.eq_of_hit hp hlt (fun q hq hqp => (hbefore q hq hqp).1) hhit
      exact heq ▸ hg.hit (heq ▸ hlt)
    · intro hhit
      have heq := hg.eq_of_hit hp hlt (fun q hq hqp => (hbefore q hq hqp).2) hhit
      exact heq ▸ hf.hit (heq ▸ hlt)
  · intro h
    have hge := not_lt_of_agreeAt hf hg h
    have hle := not_lt_of_agreeAt hg hf fun p hp hlt hbefore =>
      (h p hp hlt fun q hq hqp => (hbefore q hq hqp).symm).symm
    omega

theorem unique (hn : First f lo hi n) (hm : First f lo hi m) : n = m :=
  (hn.eq_iff hm).2 fun _ _ _ _ => Iff.rfl

theorem congr (hf : First f lo hi n) (hfg : ∀ p, p ≤ hi → (f p ↔ g p)) : First g lo hi n := by
  refine ⟨hf.gt, hf.le, fun p hp hlt => ?_, fun hlt => (hfg n hf.le).1 (hf.hit hlt)⟩
  exact mt (hfg p (hlt.le.trans hf.le)).2 (hf.before p hp hlt)

end First

/-- A search of `(lo, hi]` for `f` answered `r`. -/
def Found (f : Nat → Prop) (lo hi : Nat) : Option Nat → Prop
  | some n => lo < n ∧ n ≤ hi ∧ f n ∧ ∀ p, lo < p → p < n → ¬ f p
  | none => ∀ p, lo < p → p ≤ hi → ¬ f p

namespace Found

variable {f g : Nat → Prop} {lo mid hi : Nat} {r r' : Option Nat}

theorem first (h : Found f lo hi r) (hlt : lo < hi) : First f lo hi (r.getD hi) := by
  cases r with
  | none => exact ⟨hlt, le_rfl, fun p hp hph => h p hp hph.le, fun hhi => absurd hhi (lt_irrefl _)⟩
  | some n =>
    obtain ⟨hgt, hle, hhit, hbefore⟩ := h
    exact ⟨hgt, hle, hbefore, fun _ => hhit⟩

/-- The first hit does not depend on where the range ends. -/
theorem eq_of_some (h : Found f lo hi (some n)) (h' : Found f lo hi' (some n')) : n = n' := by
  obtain ⟨hgt, -, hhit, hbefore⟩ := h
  obtain ⟨hgt', -, hhit', hbefore'⟩ := h'
  have hle : ¬ n < n' := fun hlt => hbefore' n hgt hlt hhit
  have hge : ¬ n' < n := fun hlt => hbefore n' hgt' hlt hhit'
  omega

theorem unique (h : Found f lo hi r) (h' : Found f lo hi r') : r = r' := by
  cases r with
  | none =>
    cases r' with
    | none => rfl
    | some m =>
      obtain ⟨hgt, hle, hhit, -⟩ := h'
      exact absurd hhit (h m hgt hle)
  | some n =>
    cases r' with
    | none =>
      obtain ⟨hgt, hle, hhit, -⟩ := h
      exact absurd hhit (h' n hgt hle)
    | some m => exact congrArg some (h.eq_of_some h')

theorem congr (h : Found f lo hi r) (hfg : ∀ p, lo < p → p ≤ hi → (f p ↔ g p)) :
    Found g lo hi r := by
  cases r with
  | none => exact fun p hp hle => mt (hfg p hp hle).2 (h p hp hle)
  | some n =>
    obtain ⟨hgt, hle, hhit, hbefore⟩ := h
    refine ⟨hgt, hle, (hfg n hgt hle).1 hhit, fun p hp hlt => ?_⟩
    exact mt (hfg p hp (hlt.le.trans hle)).2 (hbefore p hp hlt)

/-- A search that answers `k` or more has no hit below. -/
theorem not_of_lt (h : Found f lo hi r) (hr : ∀ n ∈ r, k ≤ n) (hlo : lo < p) (hlt : p < k)
    (hhi : p ≤ hi) : ¬ f p := by
  cases r with
  | none => exact h p hlo hhi
  | some n => exact h.2.2.2 p hlo (hlt.trans_le (hr n rfl))

/-- A search that is taken up where another one ended without an answer. -/
theorem append (h : Found f lo mid r) (h' : Found f mid hi r') (hlo : lo ≤ mid) (hhi : mid ≤ hi) :
    Found f lo hi (r.or r') := by
  cases r with
  | some n =>
    obtain ⟨hgt, hle, hhit, hbefore⟩ := h
    exact ⟨hgt, hle.trans hhi, hhit, hbefore⟩
  | none =>
    have hsplit : ∀ p, lo < p → (mid < p → ¬ f p) → ¬ f p := by
      intro p hp hmid
      rcases Nat.lt_or_ge mid p with hlt | hge
      · exact hmid hlt
      · exact h p hp hge
    cases r' with
    | none => exact fun p hp hle => hsplit p hp fun hmid => h' p hmid hle
    | some n =>
      obtain ⟨hgt, hle, hhit, hbefore⟩ := h'
      exact ⟨hlo.trans_lt hgt, hle, hhit,
        fun p hp hlt => hsplit p hp fun hmid => hbefore p hmid hlt⟩

/-- A search that goes on after a position without a hit. -/
theorem cons (h : Found f (lo + 1) hi r) (hnot : ¬ f (lo + 1)) (hhi : lo + 1 ≤ hi) :
    Found f lo hi r := by
  have hone : Found f lo (lo + 1) none := fun p hp hle => (show p = lo + 1 by omega) ▸ hnot
  rw [← @Option.none_or _ r]
  exact hone.append h (Nat.le_succ lo) hhi

end Found

/-! ## Two passes -/

section
variable {f g : Nat → Prop} {avg max k l m n n' : Nat}

/-- A search of `k` positions in two passes stops at `n`: at the first hit `f` before `avg`, else at
`k` if that is before `avg`, and else at the first hit `g`, at `max` or at `k`. -/
def TwoPass (f g : Nat → Prop) (avg max k n : Nat) : Prop :=
  Found f 0 (min k (avg - 1)) (some n) ∨
    Found f 0 (min k (avg - 1)) none ∧
      ((k < avg ∧ n = k) ∨ (avg ≤ k ∧ First g 0 (min k max) n))

/-- The searches of `l` and of `m ≥ l` positions stop at the same one. -/
inductive Settled (f g : Nat → Prop) (avg max l m : Nat) : Prop
  | same : l = m → Settled f g avg max l m
  | first (p : Nat) : 0 < p → p ≤ l → p < avg → f p → Settled f g avg max l m
  | ceiling : avg ≤ l → max ≤ l → Settled f g avg max l m
  | second (p : Nat) : avg ≤ l → 0 < p → p ≤ l → g p → Settled f g avg max l m
  | atEnd : l < avg → avg ≤ m → (∀ p, 0 < p → p < avg → ¬ f p) → g l →
      (∀ p, 0 < p → p < l → ¬ g p) → Settled f g avg max l m

theorem TwoPass.unique (h : TwoPass f g avg max k n) (h' : TwoPass f g avg max k n') : n = n' := by
  rcases h with h | ⟨hnone, h⟩ <;> rcases h' with h' | ⟨hnone', h'⟩
  · exact h.eq_of_some h'
  · cases h.unique hnone'
  · cases hnone.unique h'
  · rcases h with ⟨hlt, rfl⟩ | ⟨hge, h⟩ <;> rcases h' with ⟨hlt', rfl⟩ | ⟨hge', h'⟩
    · rfl
    · omega
    · omega
    · exact h.unique h'

theorem TwoPass.le (h : TwoPass f g avg max k n) : n ≤ k := by
  rcases h with ⟨-, hle, -⟩ | ⟨-, ⟨-, rfl⟩ | ⟨-, h⟩⟩
  · omega
  · exact le_rfl
  · exact h.le.trans (Nat.min_le_left _ _)

/-- The first pass has no hit before the search stops. -/
theorem TwoPass.not_first (h : TwoPass f g avg max k n) (hp : 0 < p) (hlt : p < n)
    (havg : p < avg) : ¬ f p := by
  have hle := h.le
  rcases h with h | ⟨hnone, -⟩
  · exact h.2.2.2 p hp hlt
  · exact hnone p hp (by omega)

/-- A search that does not stop at a hit of the first pass has none in it. -/
theorem TwoPass.second (h : TwoPass f g avg max k n) (hn : n < avg → ¬ f n) :
    (∀ p, 0 < p → p ≤ k → p < avg → ¬ f p) ∧
      ((k < avg ∧ n = k) ∨ (avg ≤ k ∧ First g 0 (min k max) n)) := by
  rcases h with ⟨hpos, hle, hhit, -⟩ | ⟨hnone, h⟩
  · exact absurd hhit (hn (by omega))
  · exact ⟨fun p hp hpk hpa => hnone p hp (by omega), h⟩

/-- The tests up to `k` decide. -/
theorem TwoPass.congr (h : TwoPass f g avg max k n) (hf : ∀ p, p ≤ k → (f p ↔ f' p))
    (hg : avg ≤ k → ∀ p, p ≤ k → (g p ↔ g' p)) : TwoPass f' g' avg max k n := by
  have hf' : ∀ p, 0 < p → p ≤ min k (avg - 1) → (f p ↔ f' p) := fun p _ hp => hf p (by omega)
  rcases h with h | ⟨hnone, h | ⟨hge, h⟩⟩
  · exact .inl (h.congr hf')
  · exact .inr ⟨hnone.congr hf', .inl h⟩
  · exact .inr ⟨hnone.congr hf', .inr ⟨hge, h.congr fun p hp => hg hge p (by omega)⟩⟩

/-- Searches that both reach `avg` differ at most in where the second pass ends. -/
theorem TwoPass.eq_of_second (h : TwoPass f g avg max l n) (h' : TwoPass f g avg max m n')
    (hl : avg ≤ l) (hm : avg ≤ m)
    (hsecond : First g 0 (min l max) n → First g 0 (min m max) n' → n = n') : n = n' := by
  have hrange : min m (avg - 1) = min l (avg - 1) := by omega
  unfold TwoPass at h'
  rw [hrange] at h'
  rcases h with h | ⟨hnone, ⟨hlt, -⟩ | ⟨-, h⟩⟩ <;> rcases h' with h' | ⟨hnone', ⟨hlt', -⟩ | ⟨-, h'⟩⟩
  · exact h.eq_of_some h'
  · omega
  · cases h.unique hnone'
  · omega
  · omega
  · omega
  · cases hnone.unique h'
  · omega
  · exact hsecond h h'

/-- Settled searches stop at the same position. -/
theorem Settled.eq (h : Settled f g avg max l m) (hn : TwoPass f g avg max l n)
    (hn' : TwoPass f g avg max m n') (hpos : 0 < l) (hlm : l ≤ m) (ham : avg ≤ max) : n = n' := by
  cases h with
  | same heq =>
    subst heq
    exact hn.unique hn'
  | first p hp hle hlt hf =>
    rcases hn with hn | ⟨hnone, -⟩
    · rcases hn' with hn' | ⟨hnone', -⟩
      · exact hn.eq_of_some hn'
      · exact absurd hf (hnone' p hp (by omega))
    · exact absurd hf (hnone p hp (by omega))
  | ceiling hl hmax =>
    refine hn.eq_of_second hn' hl (by omega) fun h h' => ?_
    rw [show min m max = min l max by omega] at h'
    exact h.unique h'
  | second p hl hp hle hg =>
    refine hn.eq_of_second hn' hl (by omega) fun h h' => ?_
    rcases Nat.lt_or_ge n (min l max) with hlt | hge
    · exact (h'.eq_of_hit h.gt (by omega) h.before (h.hit hlt)).symm
    · -- the shorter search gets to its end, so the hit is there
      have hend : n = min l max := le_antisymm h.le hge
      rcases Nat.lt_or_ge l (min m max) with hlt | hge'
      · have hnp : ¬ p < n := fun hpn => h.before p hp hpn hg
        obtain rfl : p = n := by omega
        exact (h'.eq_of_hit hp (by omega) h.before hg).symm
      · rw [show min m max = min l max by omega] at h'
        exact h.unique h'
  | atEnd hl hm hf hg hbefore =>
    have hnl : n = l := by
      rcases hn with ⟨hpos', hle, hhit, -⟩ | ⟨-, ⟨-, heq⟩ | ⟨hge, -⟩⟩
      · exact absurd hhit (hf n hpos' (by omega))
      · exact heq
      · omega
    rcases hn' with ⟨hpos', hle, hhit, -⟩ | ⟨-, ⟨hlt, -⟩ | ⟨-, h'⟩⟩
    · exact absurd hhit (hf n' hpos' (by omega))
    · omega
    · rw [hnl, h'.eq_of_hit hpos (by omega) hbefore hg]

/-- Searches that stop at the same position are settled. -/
theorem settled_of_eq (hn : TwoPass f g avg max l n) (hn' : TwoPass f g avg max m n)
    (hlm : l ≤ m) (ham : avg ≤ max) : Settled f g avg max l m := by
  rcases hn with ⟨hpos, hle, hhit, -⟩ | ⟨hnone, ⟨hlt, hnl⟩ | ⟨hl, h⟩⟩
  · exact .first n hpos (by omega) (by omega) hhit
  · subst hnl
    rcases hn' with ⟨hpos', hle', hhit', -⟩ | ⟨hnone', ⟨-, heq⟩ | ⟨hm, h'⟩⟩
    · exact absurd hhit' (hnone n hpos' (by omega))
    · exact .same heq
    · exact .atEnd hlt hm (fun p hp hpa => hnone' p hp (by omega)) (h'.hit (by omega)) h'.before
  · rcases Nat.lt_or_ge n (min l max) with hlt | hge
    · exact .second n hl h.gt (by omega) (h.hit hlt)
    · rcases Nat.lt_or_ge l max with hmax | hmax
      · have hend : n = l := by
          have := h.le
          omega
        rcases hn' with ⟨hpos', hle', -⟩ | ⟨-, ⟨hlt', -⟩ | ⟨-, h'⟩⟩
        · omega
        · omega
        · rcases Nat.lt_or_ge l (min m max) with hlt' | hge'
          · exact .second n hl h.gt (by omega) (h'.hit (by omega))
          · exact .same (by omega)
      · exact .ceiling hl hmax

end

end Aegis
