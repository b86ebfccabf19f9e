import Mathlib.Tactic

/-!
# Tiling a list by a cut rule

A cut rule answers, for a non-empty list, how many elements its first piece takes. Repeating it
on what is left tiles the list: `CutRule.tile` is that iteration, which reports each piece by a
function of the offset it starts at and the list that remains there. The lemmas say what every
tiling has whatever the rule and the report are: it is empty only on the empty list, every report
is made at a suffix of the list, neighbouring reports are one cut apart, and a length that each
report gives as its cut adds up to the length of the list. A tiling can be taken up at any of its
boundaries (`tile_split`), and one that goes on where another ended early agrees with it up to there
(`trim_tile_isPrefix`). A rule that looks at its offset too is a rule on positioned elements
(`positioned`).
-/

namespace Aegis

/-- A rule for cutting the first piece off a non-empty list: the piece is non-empty and fits. -/
structure CutRule (α : Type*) where
  cut : List α → Nat
  pos : ∀ {s}, s ≠ [] → 0 < cut s
  le : ∀ s, cut s ≤ s.length

namespace CutRule

variable {α β γ : Type*} (c : CutRule α) (f : Nat → List α → β) {b : β} {off : Nat} {s : List α}

/-- What is left after a cut is shorter. -/
theorem length_drop_lt (hs : s ≠ []) : (s.drop (c.cut s)).length < s.length := by
  have h1 := c.pos hs
  have h2 := List.length_pos_iff.2 hs
  rw [List.length_drop]
  omega

/-- The reports of the pieces of `s`, the first of which starts at `off`. -/
def tile (off : Nat) (s : List α) : List β :=
  if hs : s = [] then []
  else
    have := c.length_drop_lt hs
    f off s :: tile (off + c.cut s) (s.drop (c.cut s))
termination_by s.length
decreasing_by exact this

@[simp] theorem tile_nil (off : Nat) : c.tile f off [] = [] := by
  rw [tile]
  simp

theorem tile_of_ne (hs : s ≠ []) :
    c.tile f off s = f off s :: c.tile f (off + c.cut s) (s.drop (c.cut s)) := by
  rw [tile, dif_neg hs]

/-- A tiling has no piece exactly when there is nothing to tile. -/
theorem tile_eq_nil_iff : c.tile f off s = [] ↔ s = [] := by
  refine ⟨fun h => ?_, fun h => h ▸ c.tile_nil f off⟩
  by_contra hs
  rw [c.tile_of_ne f hs] at h
  cases h

/-- Induction along a tiling: the empty list, and a list from what its first cut leaves. -/
theorem tile_induction {P : List α → Prop} (nil : P [])
    (cut : ∀ s, s ≠ [] → P (s.drop (c.cut s)) → P s) (s : List α) : P s := by
  induction hn : s.length using Nat.strongRecOn generalizing s with
  | ind n ih =>
    rcases eq_or_ne s [] with rfl | hs
    · exact nil
    · exact cut s hs (ih _ (hn ▸ c.length_drop_lt hs) _ rfl)

/-- The first report is made at the offset the tiling starts at. -/
theorem head?_tile (hb : b ∈ (c.tile f off s).head?) : b = f off s := by
  rcases eq_or_ne s [] with rfl | hs
  · simp at hb
  · rw [c.tile_of_ne f hs] at hb
    simpa using hb.symm

/-- Every report is made at a non-empty suffix of the list, at that suffix's offset. -/
theorem exists_of_mem_tile (hb : b ∈ c.tile f off s) :
    ∃ n, s.drop n ≠ [] ∧ b = f (off + n) (s.drop n) := by
  induction s using c.tile_induction generalizing off with
  | nil => simp at hb
  | cut s hs ih =>
    rw [c.tile_of_ne f hs] at hb
    rcases List.mem_cons.1 hb with rfl | hb
    · exact ⟨0, hs, rfl⟩
    · obtain ⟨n, hne, rfl⟩ := ih hb
      rw [List.drop_drop] at hne ⊢
      exact ⟨c.cut s + n, hne, by rw [Nat.add_assoc]⟩

/-- Neighbouring reports are one cut apart. -/
theorem isChain_tile (hR : ∀ off s, R (f off s) (f (off + c.cut s) (s.drop (c.cut s)))) (off : Nat)
    (s : List α) : (c.tile f off s).IsChain R := by
  induction s using c.tile_induction generalizing off with
  | nil => simp
  | cut s hs ih =>
    rw [c.tile_of_ne f hs, List.isChain_cons]
    refine ⟨fun b hb => ?_, ih _⟩
    rw [c.head?_tile f hb]
    exact hR off s

/-- A length that each report gives as its cut adds up to the length of the list. -/
theorem sum_map_tile (hlen : ∀ off s, len (f off s) = c.cut s) (off : Nat) (s : List α) :
    ((c.tile f off s).map len).sum = s.length := by
  induction s using c.tile_induction generalizing off with
  | nil => simp
  | cut s hs ih =>
    have h := c.le s
    rw [c.tile_of_ne f hs, List.map_cons, List.sum_cons, ih, hlen, List.length_drop]
    omega

/-- A tiling has no more pieces than the list has elements. -/
theorem length_tile_le (off : Nat) (s : List α) : (c.tile f off s).length ≤ s.length := by
  induction s using c.tile_induction generalizing off with
  | nil => simp
  | cut s hs ih =>
    have hlt := c.length_drop_lt hs
    have hrest := ih (off + c.cut s)
    rw [c.tile_of_ne f hs, List.length_cons]
    omega

/-- The piece a cut takes has the length the rule answered. -/
theorem length_take_cut (s : List α) : (s.take (c.cut s)).length = c.cut s := by
  rw [List.length_take, Nat.min_eq_left (c.le s)]

/-- The pieces make up the list. -/
theorem flatten_tile (off : Nat) (s : List α) :
    (c.tile (fun _ r => r.take (c.cut r)) off s).flatten = s := by
  induction s using c.tile_induction generalizing off with
  | nil => simp
  | cut s hs ih => rw [c.tile_of_ne _ hs, List.flatten_cons, ih, List.take_append_drop]

/-! ## Taking up a tiling -/

variable {f}

theorem map_tile (g : β → γ) (off : Nat) (s : List α) :
    (c.tile f off s).map g = c.tile (fun o r => g (f o r)) off s := by
  induction s using c.tile_induction generalizing off with
  | nil => simp
  | cut s hs ih => rw [c.tile_of_ne _ hs, c.tile_of_ne _ hs, List.map_cons, ih]

/-- Moving the start moves every report. -/
theorem tile_add (n off : Nat) (s : List α) :
    c.tile f (off + n) s = c.tile (fun o r => f (o + n) r) off s := by
  induction s using c.tile_induction generalizing off with
  | nil => simp
  | cut s hs ih => rw [c.tile_of_ne _ hs, c.tile_of_ne _ hs, Nat.add_right_comm, ih]

/-- The offsets at which the pieces of `s` start. -/
def starts (s : List α) : List Nat := c.tile (fun o _ => o) 0 s

/-- What is left of `s` at the start of each of its pieces. -/
def rests (s : List α) : List (List α) := c.tile (fun _ r => r) 0 s

@[simp] theorem starts_nil : c.starts [] = [] := c.tile_nil _ 0

@[simp] theorem rests_nil : c.rests [] = [] := c.tile_nil _ 0

theorem starts_of_ne (hs : s ≠ []) :
    c.starts s = 0 :: (c.starts (s.drop (c.cut s))).map (· + c.cut s) := by
  rw [starts, starts, c.tile_of_ne _ hs, c.tile_add, c.map_tile]

theorem rests_of_ne (hs : s ≠ []) : c.rests s = s :: c.rests (s.drop (c.cut s)) := by
  rw [rests, rests, c.tile_of_ne _ hs, c.tile_add]

/-- **A tiling can be taken up at each of its boundaries.** -/
theorem tile_split (hn : n ∈ c.starts s) (off : Nat) :
    ∃ before, c.tile f off s = before ++ c.tile f (off + n) (s.drop n) ∧
      ∀ b ∈ before, ∃ m < n, b = f (off + m) (s.drop m) := by
  induction s using c.tile_induction generalizing off n with
  | nil => simp at hn
  | cut s hs ih =>
    rw [c.starts_of_ne hs] at hn
    rcases List.mem_cons.1 hn with rfl | hn
    · exact ⟨[], rfl, nofun⟩
    · obtain ⟨m, hm, rfl⟩ := List.mem_map.1 hn
      obtain ⟨before, heq, hbefore⟩ := ih hm (off + c.cut s)
      refine ⟨f off s :: before, ?_, fun b hb => ?_⟩
      · rw [c.tile_of_ne _ hs, heq, List.drop_drop, List.cons_append, Nat.add_assoc,
          Nat.add_comm (c.cut s)]
      · rcases List.mem_cons.1 hb with rfl | hb
        · exact ⟨0, Nat.lt_of_lt_of_le (c.pos hs) (Nat.le_add_left _ _), rfl⟩
        · obtain ⟨k, hk, rfl⟩ := hbefore b hb
          rw [List.drop_drop]
          exact ⟨c.cut s + k, by omega, by rw [Nat.add_assoc]⟩

/-- A tiling is its reports at its boundaries. -/
theorem tile_eq_map_starts (off : Nat) (s : List α) :
    c.tile f off s = (c.starts s).map fun n => f (off + n) (s.drop n) := by
  induction s using c.tile_induction generalizing off with
  | nil => simp
  | cut s hs ih =>
    rw [c.tile_of_ne _ hs, c.starts_of_ne hs, List.map_cons, List.map_map, ih]
    congr 1
    refine List.map_congr_left fun n _ => ?_
    rw [Function.comp_apply, List.drop_drop, Nat.add_assoc, Nat.add_comm n]

/-- **Two rules tile a list alike** exactly when they cut every piece of the one tiling alike, if
their reports of a piece agree exactly when their cuts of it do. -/
theorem tile_eq_tile_iff_of (c' : CutRule α) (hf : ∀ o r, f' o r = f o r ↔ c'.cut r = c.cut r)
    (off : Nat) (s : List α) :
    c'.tile f' off s = c.tile f off s ↔ ∀ r ∈ c.rests s, c'.cut r = c.cut r := by
  induction s using c.tile_induction generalizing off with
  | nil => simp
  | cut s hs ih =>
    rw [c.tile_of_ne _ hs, c'.tile_of_ne _ hs, c.rests_of_ne hs, List.forall_mem_cons,
      List.cons.injEq, hf]
    constructor
    · rintro ⟨hcut, hrest⟩
      rw [hcut] at hrest
      exact ⟨hcut, (ih _).1 hrest⟩
    · rintro ⟨hcut, hrest⟩
      rw [hcut]
      exact ⟨rfl, (ih _).2 hrest⟩

theorem tile_eq_tile_iff (c' : CutRule α) (off : Nat) (s : List α) :
    c'.tile (fun o r => (o, c'.cut r)) off s = c.tile (fun o r => (o, c.cut r)) off s ↔
      ∀ r ∈ c.rests s, c'.cut r = c.cut r :=
  c.tile_eq_tile_iff_of c' (fun o r => by simp) off s

section
variable {place : β → Nat} (hplace : ∀ o r, place (f o r) = o)
include hplace

/-- A report is made at a boundary. -/
theorem place_mem_starts (hb : b ∈ c.tile f 0 s) : place b ∈ c.starts s := by
  have hmap : (c.tile f 0 s).map place = c.starts s := by
    simp only [c.map_tile, hplace, starts]
  exact hmap ▸ List.mem_map_of_mem hb

/-- The reports from a boundary on are those of the tiling taken up there. -/
theorem filter_tile (hn : n ∈ c.starts s) :
    ((c.tile f 0 s).filter fun b => n ≤ place b) = c.tile f n (s.drop n) := by
  obtain ⟨before, heq, hbefore⟩ := c.tile_split (f := f) hn 0
  rw [heq, Nat.zero_add, List.filter_append, List.filter_eq_nil_iff.2, List.filter_eq_self.2,
    List.nil_append]
  · intro b hb
    obtain ⟨m, -, rfl⟩ := c.exists_of_mem_tile _ hb
    simp [hplace]
  · intro b hb
    obtain ⟨m, hlt, rfl⟩ := hbefore b hb
    simp [hplace, hlt]

end

/-- What holds of every report but the last: it holds at every boundary whose cut leaves
something. -/
theorem forall_mem_dropLast_tile {P : β → Prop} (off : Nat) (s : List α) :
    (∀ b ∈ (c.tile f off s).dropLast, P b) ↔
      ∀ n ∈ c.starts s, c.cut (s.drop n) < (s.drop n).length → P (f (off + n) (s.drop n)) := by
  induction s using c.tile_induction generalizing off with
  | nil => simp
  | cut s hs ih =>
    have hrest : (∀ n ∈ c.starts s, c.cut (s.drop n) < (s.drop n).length →
        P (f (off + n) (s.drop n))) ↔ (c.cut s < s.length → P (f off s)) ∧
          ∀ b ∈ (c.tile f (off + c.cut s) (s.drop (c.cut s))).dropLast, P b := by
      rw [c.starts_of_ne hs, List.forall_mem_cons, List.forall_mem_map, ih]
      simp only [List.drop_drop, List.drop_zero, Nat.add_zero, Nat.add_assoc,
        Nat.add_comm (c.cut s)]
    rw [hrest, c.tile_of_ne _ hs]
    rcases eq_or_ne (s.drop (c.cut s)) [] with hr | hr
    · have hend : ¬ c.cut s < s.length := not_lt.2 (List.drop_eq_nil_iff.1 hr)
      simp [hr, hend]
    · have hlt : c.cut s < s.length := not_le.1 (mt List.drop_eq_nil_iff.2 hr)
      rw [List.dropLast_cons_of_ne_nil (mt (c.tile_eq_nil_iff f).1 hr), List.forall_mem_cons]
      simp [hlt]

/-- Every report but the last is made where the cut leaves something. -/
theorem exists_of_mem_dropLast_tile (off : Nat) (s : List α) :
    ∀ b ∈ (c.tile f off s).dropLast,
      ∃ n, c.cut (s.drop n) < (s.drop n).length ∧ b = f (off + n) (s.drop n) :=
  (c.forall_mem_dropLast_tile off s).2 fun n _ hlt => ⟨n, hlt, rfl⟩

/-- Drop the last element if it is of a kind. -/
def trim (t : β → Bool) (l : List β) : List β := if l.getLast?.any t then l.dropLast else l

theorem trim_cons (t : β → Bool) (b : β) (hl : l ≠ []) : trim t (b :: l) = b :: trim t l := by
  unfold trim
  rw [List.getLast?_cons_of_ne_nil hl, List.dropLast_cons_of_ne_nil hl]
  split <;> rfl

/-- **A tiling goes on.** Where every piece is cut and reported the same with `y` appended, except a
last one of a kind, the tiling without such a piece begins the tiling with `y` appended. -/
theorem trim_tile_isPrefix (y : List α) (k : β → γ) (t : β → Bool)
    (h : ∀ r ∈ c.rests s, ∀ off, (t (f off r) = true ∧ c.cut r = r.length) ∨
      (c.cut (r ++ y) = c.cut r ∧ k (f off (r ++ y)) = k (f off r))) (off : Nat) :
    (trim t (c.tile f off s)).map k <+: (c.tile f off (s ++ y)).map k := by
  induction s using c.tile_induction generalizing off with
  | nil => simp [trim]
  | cut s hs ih =>
    have hne : s ++ y ≠ [] := fun hnil => hs (List.append_eq_nil_iff.1 hnil).1
    rw [c.rests_of_ne hs, List.forall_mem_cons] at h
    obtain ⟨hhead, hrest⟩ := h
    rcases hhead off with ⟨ht, hcut⟩ | ⟨hcut, hk⟩
    · rw [c.tile_of_ne _ hs, hcut, List.drop_length, c.tile_nil]
      simp [trim, ht]
    · rw [c.tile_of_ne _ hs, c.tile_of_ne _ hne, hcut, List.drop_append_of_le_length (c.le s)]
      rcases eq_or_ne (s.drop (c.cut s)) [] with hr | hr
      · rw [hr, c.tile_nil]
        unfold trim
        split
        · simp
        · simp [hk]
      · rw [trim_cons _ _ (mt (c.tile_eq_nil_iff f).1 hr), List.map_cons, List.map_cons, hk]
        exact (List.prefix_cons_inj _).2 (ih hrest _)

/-! ## Rules on other elements -/

/-- A rule read through a map of the elements. -/
def comap (h : β → α) : CutRule β where
  cut s := c.cut (s.map h)
  pos hs := c.pos (mt List.map_eq_nil_iff.1 hs)
  le _ := (c.le _).trans_eq (List.length_map h)

@[simp] theorem comap_cut (h : β → α) (s : List β) : (c.comap h).cut s = c.cut (s.map h) := rfl

/-- Reading a rule through a map does not change where it cuts. -/
theorem tile_comap (h : β → α) (g : Nat → List α → γ) (off : Nat) (s : List β) :
    (c.comap h).tile (fun o r => g o (r.map h)) off s = c.tile g off (s.map h) := by
  induction s using (c.comap h).tile_induction generalizing off with
  | nil => simp
  | cut s hs ih =>
    rw [(c.comap h).tile_of_ne _ hs, ih, c.tile_of_ne _ (mt List.map_eq_nil_iff.1 hs),
      List.map_drop, comap_cut]

/-- A rule whose cut depends on the offset it is made at, as a rule on elements that carry their
positions. -/
def positioned (cut : Nat → List α → Nat) (pos : ∀ off s, s ≠ [] → 0 < cut off s)
    (le : ∀ off s, cut off s ≤ s.length) : CutRule (α × Nat) where
  cut
    | [] => 0
    | e :: l => cut e.2 (e.1 :: l.map Prod.fst)
  pos {s} hs := by
    cases s with
    | nil => exact absurd rfl hs
    | cons e l => exact pos _ _ (List.cons_ne_nil _ _)
  le s := by
    cases s with
    | nil => exact le_rfl
    | cons e l => exact (le e.2 _).trans_eq (by simp)

/-- At the bytes from `off` on a positioned rule cuts as its cut at `off` does. -/
theorem positioned_cut {cut : Nat → List α → Nat} (pos : ∀ off s, s ≠ [] → 0 < cut off s)
    (le : ∀ off s, cut off s ≤ s.length) (off : Nat) (s : List α) :
    (positioned cut pos le).cut (s.zipIdx off) = cut off s := by
  cases s with
  | nil => exact (Nat.le_zero.1 (le off [])).symm
  | cons a s => simp [positioned, List.zipIdx_cons]

theorem drop_zipIdx (n off : Nat) (s : List α) :
    (s.zipIdx off).drop n = (s.drop n).zipIdx (off + n) := by
  induction n generalizing s off with
  | zero => rfl
  | succ n ih =>
    cases s with
    | nil => simp
    | cons a s => rw [List.zipIdx_cons, List.drop_succ_cons, List.drop_succ_cons, ih,
        Nat.add_right_comm, Nat.add_assoc]

end CutRule

end Aegis
