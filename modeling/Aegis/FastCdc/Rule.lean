import Aegis.FastCdc.Chunking

/-!
# The cut rule without a scan

The rule of `cutAt` in closed form. The fingerprint of a window is a sum, one term for each byte
(`gearSum`), and a chunk ends at the least position of the first window whose sum hits the strict
mask, else of the second whose sum hits the loose one, else at the cap (`CutLength`). The scan's
recurrence computes the sums (`gearFold_eq_gearSum`), so `next_chunk` emits chunks of these lengths
(`nextChunk_cutLength`).
-/

namespace Aegis.FastCdc

/-- The fingerprint of the bytes `w`: the sum of `gear[w_i] * 2^(|w|-1-i)`, modulo `2^32`. -/
def gearSum (gear : GearTable) (w : List UInt8) : UInt32 :=
  UInt32.ofNat (∑ i : Fin w.length, (gear w[i]).toNat * 2 ^ (w.length - 1 - i))

/-- The lengths `j` after position `a`, up to position `b`, whose bytes hit the mask. -/
def windowHits (gear : GearTable) (mask : UInt32) (s : List UInt8) (a b : Nat) : Set Nat :=
  {j | 1 ≤ j ∧ a + j ≤ b ∧ gearSum gear (slice s a (a + j)) &&& mask = 0}

/-- The window of the strict mask. -/
def strictHits (cfg : Config) (s : List UInt8) : Set Nat :=
  windowHits cfg.gear cfg.maskS s cfg.minChunk (min (min s.length cfg.maxChunk) cfg.avgChunk)

/-- The window of the loose mask. -/
def looseHits (cfg : Config) (s : List UInt8) : Set Nat :=
  windowHits cfg.gear cfg.maskL s cfg.avgChunk (min s.length cfg.maxChunk)

/-- The length of the first chunk of the remaining bytes `s`. -/
inductive CutLength (cfg : Config) (s : List UInt8) : Nat → Prop
  | short : s.length ≤ cfg.minChunk → CutLength cfg s s.length
  | strict (j : Nat) : cfg.minChunk < s.length → IsLeast (strictHits cfg s) j →
      CutLength cfg s (cfg.minChunk + j)
  | loose (j : Nat) : cfg.minChunk < s.length → strictHits cfg s = ∅ →
      IsLeast (looseHits cfg s) j → CutLength cfg s (cfg.avgChunk + j)
  | cap : cfg.minChunk < s.length → strictHits cfg s = ∅ → looseHits cfg s = ∅ →
      CutLength cfg s (min s.length cfg.maxChunk)

/-! ## The recurrence computes the sum -/

theorem ofNat_two_pow (n : Nat) : UInt32.ofNat (2 ^ n) = 2 ^ n := by
  induction n with
  | zero => rfl
  | succ n ih =>
    rw [pow_succ, UInt32.ofNat_mul, ih, UInt32.pow_succ]
    rfl

/-- The first byte has the highest weight. -/
theorem gearSum_cons (gear : GearTable) (byte : UInt8) (w : List UInt8) :
    gearSum gear (byte :: w) = gear byte * 2 ^ w.length + gearSum gear w := by
  have hsum : (∑ i : Fin (byte :: w).length,
      (gear (byte :: w)[i]).toNat * 2 ^ ((byte :: w).length - 1 - i)) =
      (gear byte).toNat * 2 ^ w.length +
        ∑ i : Fin w.length, (gear w[i]).toNat * 2 ^ (w.length - 1 - i) := by
    refine (Fin.sum_univ_succ (n := w.length) _).trans ?_
    refine congrArg₂ (· + ·) rfl (Finset.sum_congr rfl fun i _ => ?_)
    have hexp : (byte :: w).length - 1 - (i.succ : Nat) = w.length - 1 - i := by
      rw [Fin.val_succ, List.length_cons]
      omega
    rw [hexp]
    rfl
  rw [gearSum, hsum, UInt32.ofNat_add, UInt32.ofNat_mul, UInt32.ofNat_toNat, ofNat_two_pow]
  rfl

/-- **The rolled fingerprint is the sum.** -/
theorem gearFold_eq_gearSum (gear : GearTable) (w : List UInt8) :
    gearFold gear 0 w = gearSum gear w := by
  induction w with
  | nil => rfl
  | cons byte w ih =>
    have hstep : gearStep gear 0 byte = gear byte * 1 + 0 := by
      simp [gearStep]
    calc gearFold gear 0 (byte :: w)
        = gearFold gear (gear byte * 1 + 0) w := congrArg (gearFold gear · w) hstep
      _ = gear byte * (2 ^ w.length * 1) + gearFold gear 0 w := gearFold_eq_add gear w 1 _ 0
      _ = gearSum gear (byte :: w) := by rw [UInt32.mul_one, ih, gearSum_cons]

/-! ## The scan finds the least hit -/

section
variable {gear : GearTable} {mask : UInt32} {s : List UInt8} {a b j : Nat}

/-- A hit of the scan over a slice is a hit of the window. -/
theorem hits_slice_iff (hj : a + j ≤ b) :
    Hits gear mask 0 (slice s a b) j ↔ gearSum gear (slice s a (a + j)) &&& mask = 0 := by
  have htake : (slice s a b).take j = slice s a (a + j) := by
    rw [slice, slice, List.take_take, Nat.min_eq_left (by omega), Nat.add_sub_cancel_left]
  rw [Hits, htake, gearFold_eq_gearSum]

theorem isLeast_of_findCutScalar (hb : b ≤ s.length)
    (h : findCutScalar gear (slice s a b) mask = some j) :
    IsLeast (windowHits gear mask s a b) j := by
  have hfound := found_findCutScalarFrom gear (slice s a b) mask 0
  rw [← findCutScalar, h, length_slice hb] at hfound
  obtain ⟨hpos, hle, hhit, hbefore⟩ := hfound
  refine ⟨⟨hpos, by omega, (hits_slice_iff (by omega)).1 hhit⟩, fun i hi => ?_⟩
  obtain ⟨hipos, hile, hihit⟩ := hi
  by_contra hlt
  exact hbefore i hipos (by omega) ((hits_slice_iff hile).2 hihit)

theorem windowHits_eq_empty (hb : b ≤ s.length)
    (h : findCutScalar gear (slice s a b) mask = none) : windowHits gear mask s a b = ∅ := by
  refine Set.eq_empty_of_forall_notMem fun i hi => ?_
  obtain ⟨hipos, hile, hihit⟩ := hi
  have hfound := found_findCutScalarFrom gear (slice s a b) mask 0
  rw [← findCutScalar, h, length_slice hb] at hfound
  exact hfound i hipos (by omega) ((hits_slice_iff hile).2 hihit)

/-- A window that ends before it begins. -/
theorem windowHits_of_le (h : b ≤ a) : windowHits gear mask s a b = ∅ := by
  refine Set.eq_empty_of_forall_notMem fun i hi => ?_
  obtain ⟨hipos, hile, -⟩ := hi
  omega

end

section
variable {cfg : Config} {s : List UInt8}

theorem isLeast_of_phase1 (h : phase1 cfg s = some j) : IsLeast (strictHits cfg s) j := by
  unfold phase1 at h
  split at h
  · exact isLeast_of_findCutScalar (by omega) h
  · cases h

theorem strictHits_eq_empty (h : phase1 cfg s = none) (hlen : cfg.minChunk < s.length) :
    strictHits cfg s = ∅ := by
  rw [phase1, if_pos hlen] at h
  exact windowHits_eq_empty (by omega) h

theorem isLeast_of_phase2 (h : phase2 cfg s = some j) : IsLeast (looseHits cfg s) j := by
  unfold phase2 at h
  split at h
  · exact isLeast_of_findCutScalar (by omega) h
  · cases h

theorem looseHits_eq_empty (h : phase2 cfg s = none) : looseHits cfg s = ∅ := by
  unfold phase2 at h
  split at h
  · exact windowHits_eq_empty (by omega) h
  · exact windowHits_of_le (by omega)

/-- **The cut is where the rule says.** -/
theorem cutLength_cutAt (hv : cfg.Valid) (s : List UInt8) : CutLength cfg s (cutAt cfg s).1 := by
  obtain ⟨h0, h1, h2⟩ := hv
  rcases Nat.lt_or_ge cfg.minChunk s.length with hlen | hlen
  · unfold cutAt
    cases hp1 : phase1 cfg s with
    | some j => exact .strict j hlen (isLeast_of_phase1 hp1)
    | none =>
      have hnone := strictHits_eq_empty hp1 hlen
      cases hp2 : phase2 cfg s with
      | some j => exact .loose j hlen hnone (isLeast_of_phase2 hp2)
      | none => exact .cap hlen hnone (looseHits_eq_empty hp2)
  · have hcut : (cutAt cfg s).1 = s.length := by
      rw [cutAt, phase1, if_neg (by omega), phase2, if_neg (by omega)]
      exact Nat.min_eq_left (by omega)
    rw [hcut]
    exact .short hlen

/-- The rule leaves no choice. -/
theorem CutLength.unique (hn : CutLength cfg s n) (hm : CutLength cfg s m) : n = m := by
  have hne {A : Set Nat} {j : Nat} (hj : IsLeast A j) : A ≠ ∅ := fun h => by
    rw [h] at hj
    exact hj.1
  cases hn with
  | short hlen =>
    cases hm with
    | short => rfl
    | strict _ hlt | loose _ hlt | cap hlt => omega
  | strict j hlen hj =>
    cases hm with
    | short => omega
    | strict i _ hi => rw [hj.unique hi]
    | loose _ _ hempty | cap _ hempty => exact absurd hempty (hne hj)
  | loose j hlen hnone hj =>
    cases hm with
    | short => omega
    | strict _ _ hi => exact absurd hnone (hne hi)
    | loose i _ _ hi => rw [hj.unique hi]
    | cap _ _ hempty => exact absurd hempty (hne hj)
  | cap hlen hnone hnone' =>
    cases hm with
    | short => omega
    | strict _ _ hi => exact absurd hnone (hne hi)
    | loose _ _ _ hi => exact absurd hnone' (hne hi)
    | cap => rfl

end

/-! ## The stream -/

/-- Features that cannot be computed have a byte too often. -/
theorem count_of_features_error (h : features host cfg payload phase = .error p) :
    ∃ byte, 2 ^ 32 ≤ payload.count byte := by
  unfold features entropyQ8 at h
  split at h
  · split at h
    · cases h
    · split at h
      · next hany =>
        obtain ⟨n, hn, hle⟩ := List.any_eq_true.1 hany
        obtain ⟨byte, -, rfl⟩ := List.mem_map.1 hn
        exact ⟨UInt8.ofNat byte, of_decide_eq_true hle⟩
      · cases h
  · cases h

/-- **The next chunk has the length of the rule.** The call that does not emit it passes on an error
of the reader, or panics on a chunk that has one byte `2^32` times. -/
theorem nextChunk_cutLength {Digest : Type} (host : Host Digest) (st : FastCDCStream)
    (s : List UInt8) (hstands : Stands st s) (hs : s ≠ []) :
    ∃ n, (∀ m, CutLength st.cfg s m ↔ m = n) ∧
      ((∃ d st', nextChunk host st = (.ok (some d), st') ∧ d.length = n ∧ Stands st' (s.drop n)) ∨
        (∃ e st', nextChunk host st = (.error (.io e), st') ∧ Stands st' s ∧
          pendingErrors st.reader = e :: pendingErrors st'.reader) ∨
        ∃ p st' byte, nextChunk host st = (.error (.panic p), st') ∧
          2 ^ 32 ≤ (s.take n).count byte) := by
  have hrule := cutLength_cutAt st.valid s
  refine ⟨(cutAt st.cfg s).1, fun m => ⟨fun hm => hm.unique hrule, fun hm => hm ▸ hrule⟩, ?_⟩
  obtain ⟨st', -, ⟨e, hnext, hst', -, herr⟩ | ⟨hnext, hst', -, -⟩⟩ := hstands.nextChunk host
  · exact .inr (.inl ⟨e, st', hnext, hst', herr⟩)
  · rcases emit_cases host st.cfg st.globalOffset hs with ⟨-, hemit⟩ | ⟨p, hno, hemit⟩
    · refine .inl ⟨_, st', by rw [hnext, hemit], ?_, hst'⟩
      have hle := cutAt_le st.valid s
      show (s.take (cutAt st.cfg s).1).length = _
      rw [List.length_take]
      omega
    · cases hf : features host st.cfg (s.take (cutAt st.cfg s).1) (cutAt st.cfg s).2 with
      | ok v => exact absurd ⟨v, hf⟩ hno
      | error p' =>
        obtain ⟨byte, hbyte⟩ := count_of_features_error hf
        exact .inr (.inr ⟨p, st', byte, by rw [hnext, hemit], hbyte⟩)

theorem nextChunk_cutLength_tinyConfig :
    ∃ st, withConfig (readerOf tinyPieces) tinyConfig = .ok st ∧
      ∃ n, (∀ m, CutLength st.cfg [7, 7, 7, 7] m ↔ m = n) ∧
        ∃ d st', nextChunk identityHost st = (.ok (some d), st') ∧ d.length = n := by
  obtain ⟨st, hst, hstands, -, -, herr⟩ :=
    stands_withConfig (show tinyConfig.Valid by decide) delivers_tinyPieces
  obtain ⟨n, hrule, ⟨d, st', hnext, hlen, -⟩ | ⟨e, st', -, -, hfail⟩ | ⟨p, st', byte, -, hcount⟩⟩ :=
    nextChunk_cutLength identityHost st [7, 7, 7, 7] hstands (by decide)
  · exact ⟨st, hst, n, hrule, d, st', hnext, hlen⟩
  · cases herr.symm.trans hfail
  · have hle := (List.count_le_length (a := byte)).trans (List.length_take_le' n [7, 7, 7, 7])
    exact absurd (hcount.trans hle) (by decide)

end Aegis.FastCdc
