import Aegis.FastCdc.Locality

/-!
# The stream and its oracle

`naiveChunkBoundaries` is the reference simulation of `crates/fastcdc/tests/oracle.rs`, which the
stream is tested against. It rolls one fingerprint over the whole chunk; the stream starts a new one
at `min_chunk` and another at `avg_chunk` (`cut_point` scans two slices from fingerprint `0`). Both
answer the first position where their fingerprint hits the mask of the phase. A byte leaves the
fingerprint after 32 more, so the two differ only within 31 bytes of a seam, and there they do: the
stream agrees with its oracle exactly on the inputs whose fingerprints hit alike at the seams
(`chunkAll_eq_naive_iff`).
-/

namespace Aegis.FastCdc

/-! ## The oracle -/

/-- A phase of the simulation: the first hit, at absolute positions, and the fingerprint there. -/
def naiveScan (gear : GearTable) (mask : UInt32) : List UInt8 → Nat → UInt32 → Option Nat × UInt32
  | [], _, fp => (none, fp)
  | byte :: rest, pos, fp =>
    let fp := gearStep gear fp byte
    if fp &&& mask = 0 then (some (pos + 1), fp) else naiveScan gear mask rest (pos + 1) fp

/-- The body of the simulation's loop: the length of the first chunk of `s`. -/
def naiveCut (cfg : Config) (s : List UInt8) : Nat :=
  let cap := min cfg.maxChunk s.length
  if cap ≤ cfg.minChunk then cap
  else
    let warm := gearFold cfg.gear 0 (slice s 0 cfg.minChunk)
    let p1End := min cap cfg.avgChunk
    match naiveScan cfg.gear cfg.maskS (slice s cfg.minChunk p1End) cfg.minChunk warm with
    | (some hit, _) => hit
    | (none, fp) =>
      if cap > cfg.avgChunk then
        match naiveScan cfg.gear cfg.maskL (slice s cfg.avgChunk cap) cfg.avgChunk fp with
        | (some hit, _) => hit
        | (none, _) => cap
      else cap

/-- The loop of `naive_chunk_boundaries`, at most `fuel` rounds of it; `none` when they do not
suffice. -/
def naiveLoop (cfg : Config) : Nat → List UInt8 → List Nat → Option (List Nat)
  | 0, _, _ => none
  | fuel + 1, s, bounds =>
    if s = [] then some bounds
    else naiveLoop cfg fuel (s.drop (naiveCut cfg s)) (bounds ++ [naiveCut cfg s])

/-- `naive_chunk_boundaries`: the lengths of the chunks. -/
def naiveChunkBoundaries (cfg : Config) (fuel : Nat) (data : List UInt8) : Option (List Nat) :=
  naiveLoop cfg fuel data []

/-- Lengths with the offsets at which they begin. -/
def withOffsets : Nat → List Nat → List (Nat × Nat)
  | _, [] => []
  | off, len :: rest => (off, len) :: withOffsets (off + len) rest

/-! ## Both answer the first hit -/

section
variable {cfg : Config} {s : List UInt8}

/-- The stream's fingerprint hits at position `p`: it was started anew at the last seam. -/
def Restarted (cfg : Config) (s : List UInt8) (p : Nat) : Prop :=
  if p ≤ cfg.avgChunk then Hits cfg.gear cfg.maskS 0 (s.drop cfg.minChunk) (p - cfg.minChunk)
  else Hits cfg.gear cfg.maskL 0 (s.drop cfg.avgChunk) (p - cfg.avgChunk)

/-- The oracle's fingerprint hits at position `p`: it was rolled over the whole chunk. -/
def Continued (cfg : Config) (s : List UInt8) (p : Nat) : Prop :=
  Hits cfg.gear (if p ≤ cfg.avgChunk then cfg.maskS else cfg.maskL) 0 s p

/-- Within 31 bytes after a seam, as far as neither has hit before, the stream's fingerprint hits
exactly if the oracle's does. -/
def SeamsAgree (cfg : Config) (s : List UInt8) : Prop :=
  ∀ p, (cfg.minChunk < p ∧ p < cfg.minChunk + 32) ∨ (cfg.avgChunk < p ∧ p < cfg.avgChunk + 32) →
    p < min s.length cfg.maxChunk → First.AgreeAt (Restarted cfg s) (Continued cfg s) cfg.minChunk p

variable {a b p : Nat} {mask : UInt32} {gear : GearTable}

/-- A scan of a slice answers its first hit. -/
theorem found_slice (hab : a ≤ b) (hb : b ≤ s.length) :
    Found (fun p => Hits gear mask fp (s.drop a) (p - a)) a b
      (findCutLoop gear mask (slice s a b) a fp) := by
  have hfound := found_findCutLoop gear mask (slice s a b) a fp
  rw [length_slice hb, Nat.add_sub_cancel' hab] at hfound
  refine hfound.congr fun p _ hle => ?_
  rw [Hits, Hits, slice, List.take_take, Nat.min_eq_left (by omega)]

/-- Rolling a fingerprint over `a` bytes and then on. -/
theorem hits_drop (h : a ≤ p) :
    Hits gear mask (gearFold gear 0 (s.take a)) (s.drop a) (p - a) ↔ Hits gear mask 0 s p := by
  have hsplit : s.take p = s.take a ++ (s.drop a).take (p - a) := by
    rw [← List.take_add, Nat.add_sub_cancel' h]
  rw [Hits, Hits, hsplit, gearFold, gearFold, gearFold, List.foldl_append]

/-- **The stream cuts at the first hit** of its restarted fingerprints. -/
theorem cutAt_first (hv : cfg.Valid) (h : cfg.minChunk < s.length) :
    First (Restarted cfg s) cfg.minChunk (min s.length cfg.maxChunk) (cutAt cfg s).1 := by
  obtain ⟨h0, h1, h2⟩ := hv
  have hcut : (cutAt cfg s).1 = (((phase1 cfg s).map (cfg.minChunk + ·)).or
      ((phase2 cfg s).map (cfg.avgChunk + ·))).getD (min s.length cfg.maxChunk) := by
    unfold cutAt
    cases phase1 cfg s with
    | some len => rfl
    | none => cases phase2 cfg s <;> rfl
  have hfound1 : Found (Restarted cfg s) cfg.minChunk (min (min s.length cfg.maxChunk) cfg.avgChunk)
      ((phase1 cfg s).map (cfg.minChunk + ·)) := by
    rw [phase1, if_pos h, findCutScalar, findCutScalarFrom, ← findCutLoop_eq_map]
    refine (found_slice (by omega) (by omega)).congr fun p _ hle => ?_
    rw [Restarted, if_pos (by omega)]
  rw [hcut]
  refine Found.first ?_ (by omega)
  rcases Nat.lt_or_ge cfg.avgChunk (min s.length cfg.maxChunk) with havg | havg
  · rw [Nat.min_eq_right havg.le] at hfound1
    refine hfound1.append ?_ h1.le havg.le
    rw [phase2, if_pos havg, findCutScalar, findCutScalarFrom, ← findCutLoop_eq_map]
    refine (found_slice (by omega) (by omega)).congr fun p hp _ => ?_
    rw [Restarted, if_neg (by omega)]
  · rw [Nat.min_eq_left havg] at hfound1
    rw [phase2, if_neg (by omega), Option.map_none, Option.or_none]
    exact hfound1

/-- The simulation's scan finds what the stream's does, and has rolled over all of it if nothing. -/
theorem naiveScan_eq (gear : GearTable) (mask : UInt32) (data : List UInt8) (pos : Nat)
    (fp : UInt32) :
    (naiveScan gear mask data pos fp).1 = findCutLoop gear mask data pos fp ∧
      ((naiveScan gear mask data pos fp).1 = none →
        (naiveScan gear mask data pos fp).2 = gearFold gear fp data) := by
  induction data generalizing pos fp with
  | nil => exact ⟨rfl, fun _ => rfl⟩
  | cons byte rest ih =>
    simp only [naiveScan, findCutLoop]
    split
    · exact ⟨rfl, by simp⟩
    · exact ih (pos + 1) (gearStep gear fp byte)

/-- The oracle's scan of a slice, with the fingerprint of all bytes before it. -/
theorem found_naiveScan (hab : a ≤ b) (hb : b ≤ s.length) :
    Found (Hits gear mask 0 s) a b
      (naiveScan gear mask (slice s a b) a (gearFold gear 0 (s.take a))).1 := by
  rw [(naiveScan_eq ..).1]
  exact (found_slice hab hb).congr fun p hp _ => hits_drop hp.le

/-- A fingerprint rolled on over a slice. -/
theorem gearFold_slice (gear : GearTable) (hab : a ≤ b) :
    gearFold gear (gearFold gear 0 (s.take a)) (slice s a b) = gearFold gear 0 (s.take b) := by
  have hsplit : s.take b = s.take a ++ slice s a b := by
    rw [slice, ← List.take_add, Nat.add_sub_cancel' hab]
  rw [hsplit, gearFold, gearFold, gearFold, List.foldl_append]

/-- The oracle's two scans at absolute positions. -/
theorem naiveCut_eq (hv : cfg.Valid) (h : cfg.minChunk < s.length) :
    naiveCut cfg s =
      ((naiveScan cfg.gear cfg.maskS
          (slice s cfg.minChunk (min (min s.length cfg.maxChunk) cfg.avgChunk)) cfg.minChunk
          (gearFold cfg.gear 0 (s.take cfg.minChunk))).1.or
        (if cfg.avgChunk < min s.length cfg.maxChunk then
          (naiveScan cfg.gear cfg.maskL (slice s cfg.avgChunk (min s.length cfg.maxChunk))
            cfg.avgChunk (gearFold cfg.gear 0 (s.take cfg.avgChunk))).1
        else none)).getD (min s.length cfg.maxChunk) := by
  obtain ⟨h0, h1, h2⟩ := hv
  have hwarm : slice s 0 cfg.minChunk = s.take cfg.minChunk := by simp [slice]
  unfold naiveCut
  rw [Nat.min_comm cfg.maxChunk, if_neg (by omega), hwarm]
  dsimp only
  have hnone := (naiveScan_eq cfg.gear cfg.maskS
    (slice s cfg.minChunk (min (min s.length cfg.maxChunk) cfg.avgChunk)) cfg.minChunk
    (gearFold cfg.gear 0 (s.take cfg.minChunk))).2
  cases hscan : naiveScan cfg.gear cfg.maskS
      (slice s cfg.minChunk (min (min s.length cfg.maxChunk) cfg.avgChunk)) cfg.minChunk
      (gearFold cfg.gear 0 (s.take cfg.minChunk)) with
  | mk r fp =>
    rw [hscan] at hnone
    cases r with
    | some hit => rfl
    | none =>
      have hfp := hnone rfl
      rcases Nat.lt_or_ge cfg.avgChunk (min s.length cfg.maxChunk) with havg | havg
      · rw [Nat.min_eq_right havg.le, gearFold_slice cfg.gear h1.le] at hfp
        obtain rfl : fp = _ := hfp
        simp only [gt_iff_lt, havg, if_true, Option.none_or]
        split
        · next hit _ hs => rw [hs, Option.getD_some]
        · next hs => rw [hs, Option.getD_none]
      · simp [Nat.not_lt.2 havg]

/-- **The oracle cuts at the first hit** of its one fingerprint. -/
theorem naiveCut_first (hv : cfg.Valid) (h : cfg.minChunk < s.length) :
    First (Continued cfg s) cfg.minChunk (min s.length cfg.maxChunk) (naiveCut cfg s) := by
  rw [naiveCut_eq hv h]
  obtain ⟨h0, h1, h2⟩ := hv
  have hfound1 : Found (Continued cfg s) cfg.minChunk
      (min (min s.length cfg.maxChunk) cfg.avgChunk) _ :=
    (found_naiveScan (s := s) (b := min (min s.length cfg.maxChunk) cfg.avgChunk) (by omega)
      (by omega)).congr fun p _ hle => by rw [Continued, if_pos (by omega)]
  refine Found.first ?_ (by omega)
  rcases Nat.lt_or_ge cfg.avgChunk (min s.length cfg.maxChunk) with havg | havg
  · rw [if_pos havg]
    rw [Nat.min_eq_right havg.le] at hfound1 ⊢
    refine hfound1.append ?_ h1.le havg.le
    refine (found_naiveScan (by omega) (by omega)).congr fun p hp _ => ?_
    rw [Continued, if_neg (by omega)]
  · rw [if_neg (by omega), Option.or_none]
    rw [Nat.min_eq_left havg] at hfound1 ⊢
    exact hfound1

/-! ## The window of the fingerprint -/

/-- A mask of `k` low bits takes the remainder by `2 ^ k`. -/
theorem toNat_and_mask (hk : k ≤ 32) (x : UInt32) :
    (x &&& UInt32.ofNat (2 ^ k - 1)).toNat = x.toNat % 2 ^ k := by
  have hle : 2 ^ k ≤ 2 ^ 32 := Nat.pow_le_pow_right two_pos hk
  have hmod : (2 ^ k - 1) % 2 ^ 32 = 2 ^ k - 1 := Nat.mod_eq_of_lt (by omega)
  rw [UInt32.toNat_and, UInt32.toNat_ofNat', hmod, Nat.and_two_pow_sub_one_eq_mod]

/-- Under a mask of `k` low bits the fingerprint is that of the last `k` bytes: the bytes before
them, and the fingerprint at the start, have been shifted out. -/
theorem gearFold_and_mask (hk : k ≤ 32) (hw : k ≤ w.length) (fp : UInt32) :
    gearFold gear fp w &&& UInt32.ofNat (2 ^ k - 1) =
      gearFold gear 0 (w.drop (w.length - k)) &&& UInt32.ofNat (2 ^ k - 1) := by
  have hlen : (w.drop (w.length - k)).length = k := by
    rw [List.length_drop]
    omega
  have hadd := gearFold_eq_add gear (w.drop (w.length - k)) 1
    (gearFold gear fp (w.take (w.length - k))) 0
  rw [UInt32.mul_one, UInt32.add_zero, gearFold, gearFold, ← List.foldl_append,
    List.take_append_drop, hlen, UInt32.mul_one] at hadd
  have hdvd : 2 ^ k ∣ 2 ^ 32 := pow_dvd_pow 2 hk
  apply UInt32.toNat.inj
  rw [toNat_and_mask hk, toNat_and_mask hk, gearFold, hadd, UInt32.toNat_add, UInt32.toNat_mul,
    toNat_two_pow, Nat.mod_mod_of_dvd _ hdvd, Nat.add_mod, Nat.mod_mod_of_dvd _ hdvd, Nat.mul_mod,
    Nat.mod_mod_of_dvd _ hdvd]
  simp

/-- **The window of the fingerprint**: under a mask of `k` low bits it depends only on the last `k`
bytes, so scans from any two fingerprints that do not hit before answer alike. -/
theorem fingerprint_window (gear : GearTable) (k : Nat) (hk : k ≤ 32) (mask : UInt32)
    (hmask : mask = UInt32.ofNat (2 ^ k - 1)) (f g : UInt32) :
    (∀ w w' : List UInt8, k ≤ w.length → k ≤ w'.length →
      w.drop (w.length - k) = w'.drop (w'.length - k) →
      gearFold gear f w &&& mask = gearFold gear g w' &&& mask) ∧
    ∀ data : List UInt8, (∀ n ∈ findCutScalarFrom gear data mask f, k ≤ n) →
      (∀ n ∈ findCutScalarFrom gear data mask g, k ≤ n) →
      findCutScalarFrom gear data mask f = findCutScalarFrom gear data mask g := by
  subst hmask
  refine ⟨fun w w' hw hw' hlast => ?_, fun data hf hg => ?_⟩
  · rw [gearFold_and_mask hk hw, gearFold_and_mask hk hw', hlast]
  have hfound := found_findCutScalarFrom gear data (UInt32.ofNat (2 ^ k - 1))
  refine ((hfound f).congr fun p hp hle => ?_).unique (hfound g)
  rcases Nat.lt_or_ge p k with hlt | hge
  · exact iff_of_false ((hfound f).not_of_lt hf hp hlt hle) ((hfound g).not_of_lt hg hp hlt hle)
  · have hlen : k ≤ (data.take p).length := by rwa [List.length_take, Nat.min_eq_left hle]
    rw [Hits, Hits, gearFold_and_mask hk hlen, gearFold_and_mask hk hlen]

theorem fingerprint_window_two :
    findCutScalarFrom UInt8.toUInt32 [1, 2, 4] 3 0 =
      findCutScalarFrom UInt8.toUInt32 [1, 2, 4] 3 5 :=
  (fingerprint_window _ 2 (by decide) 3 rfl 0 5).2 _ (by decide) (by decide)

/-! ## Where they differ -/

theorem two_pow_eq_zero {n : Nat} (h : 32 ≤ n) : (2 : UInt32) ^ n = 0 := by
  induction n, h using Nat.le_induction with
  | base => decide
  | succ n _ ih => rw [UInt32.pow_succ, ih, UInt32.zero_mul]

/-- A fingerprint forgets what is 32 bytes back. -/
theorem gearFold_eq_of_length (hg : 32 ≤ g.length) (fp : UInt32) :
    gearFold gear fp g = gearFold gear 0 g := by
  have h := gearFold_eq_add gear g 1 fp 0
  simpa [two_pow_eq_zero hg] using h

theorem hits_drop_zero (h : a + 32 ≤ p) (hp : p ≤ s.length) :
    Hits gear mask 0 (s.drop a) (p - a) ↔ Hits gear mask 0 s p := by
  have hlen : 32 ≤ ((s.drop a).take (p - a)).length := by
    rw [List.length_take, List.length_drop]
    omega
  rw [← hits_drop (show a ≤ p by omega), Hits, Hits,
    gearFold_eq_of_length hlen (gearFold gear 0 (s.take a))]

/-- Away from the seams both hit alike. -/
theorem restarted_iff_continued (hp : p ≤ s.length) (hmin : cfg.minChunk < p)
    (h : ¬ ((cfg.minChunk < p ∧ p < cfg.minChunk + 32) ∨
      (cfg.avgChunk < p ∧ p < cfg.avgChunk + 32))) : Restarted cfg s p ↔ Continued cfg s p := by
  unfold Restarted Continued
  split
  · exact hits_drop_zero (by omega) hp
  · exact hits_drop_zero (by omega) hp

/-- A chunk is cut alike exactly when the seams agree. -/
theorem naiveCut_eq_cutAt_iff (hv : cfg.Valid) :
    naiveCut cfg s = (cutAt cfg s).1 ↔ SeamsAgree cfg s := by
  rcases Nat.lt_or_ge cfg.minChunk s.length with h | h
  · rw [eq_comm, (cutAt_first hv h).eq_iff (naiveCut_first hv h)]
    constructor
    · intro hagree p hseam hlt
      exact hagree p (by have := hv.2.1; omega) hlt
    · intro hagree p hp hlt
      by_cases hseam : (cfg.minChunk < p ∧ p < cfg.minChunk + 32) ∨
          (cfg.avgChunk < p ∧ p < cfg.avgChunk + 32)
      · exact hagree p hseam hlt
      · exact fun _ => restarted_iff_continued (by omega) hp hseam
  · obtain ⟨h0, h1, h2⟩ := hv
    have hcut : (cutAt cfg s).1 = min s.length cfg.maxChunk := by
      rw [cutAt, phase1, if_neg (by omega), phase2, if_neg (by omega)]
    have hnaive : naiveCut cfg s = min s.length cfg.maxChunk := by
      rw [naiveCut, Nat.min_comm, if_pos (by omega)]
    rw [hcut, hnaive]
    refine ⟨fun _ p hseam hlt => ?_, fun _ => rfl⟩
    omega

end

/-- The cut rule of the oracle. -/
def naiveRule (cfg : Config) (hv : cfg.Valid) : CutRule UInt8 where
  cut := naiveCut cfg
  pos {s} hs := by
    have hlen := List.length_pos_iff.2 hs
    rcases Nat.lt_or_ge cfg.minChunk s.length with h | h
    · exact (Nat.zero_le _).trans_lt (naiveCut_first hv h).gt
    · rw [naiveCut, if_pos (by omega)]
      have := hv
      unfold Config.Valid at this
      omega
  le s := by
    rcases Nat.lt_or_ge cfg.minChunk s.length with h | h
    · exact (naiveCut_first hv h).le.trans (Nat.min_le_left _ _)
    · rw [naiveCut, if_pos (by omega)]
      omega

/-- The simulation's loop tiles what is left. -/
theorem naiveLoop_eq (hv : cfg.Valid) (hfuel : s.length < fuel) (bounds : List Nat) :
    naiveLoop cfg fuel s bounds =
      some (bounds ++ (naiveRule cfg hv).tile (fun _ r => naiveCut cfg r) 0 s) := by
  induction fuel generalizing s bounds with
  | zero => omega
  | succ fuel ih =>
    rcases eq_or_ne s [] with rfl | hs
    · simp [naiveLoop]
    have hlt : (s.drop (naiveCut cfg s)).length < s.length :=
      (naiveRule cfg hv).length_drop_lt hs
    rw [naiveLoop, if_neg hs, (naiveRule cfg hv).tile_of_ne _ hs, (naiveRule cfg hv).tile_add]
    refine (ih (by omega) _).trans ?_
    rw [List.append_assoc]
    rfl

theorem withOffsets_tile (hv : cfg.Valid) (off : Nat) (s : List UInt8) :
    withOffsets off ((naiveRule cfg hv).tile (fun _ r => naiveCut cfg r) 0 s) =
      (naiveRule cfg hv).tile (fun o r => (o, (naiveRule cfg hv).cut r)) off s := by
  induction s using (naiveRule cfg hv).tile_induction generalizing off with
  | nil => simp [withOffsets]
  | cut s hs ih =>
    rw [(naiveRule cfg hv).tile_of_ne _ hs, (naiveRule cfg hv).tile_of_ne _ hs,
      (naiveRule cfg hv).tile_add, withOffsets]
    exact congrArg _ (ih _)

/-- **The stream against its oracle**: they give the same offsets and lengths exactly for the inputs
whose fingerprints hit alike at the seams of every chunk of the stream. -/
theorem chunkAll_eq_naive_iff {Digest : Type} (host : Host Digest) (cfg : Config) (x : List UInt8)
    (pieces : List Delivery) (fuel : Nat) (ds : List (ChunkDescriptor Digest))
    (hcfg : cfg.validate = .ok ()) (hx : Delivers pieces x) (hfuel : x.length < fuel)
    (hds : chunkAll host fuel (readerOf pieces) cfg = some (.ok ds)) :
    (naiveChunkBoundaries cfg fuel x).map (withOffsets 0) =
        some (ds.map fun d => (d.offset, d.length)) ↔
      ∀ d ∈ ds, SeamsAgree cfg (x.drop d.offset) := by
  have hv := Config.validate_eq_ok_iff.1 hcfg
  obtain ⟨-, rfl⟩ := (chunkAll_eq_ok_iff host hv hx hfuel).1 hds
  have hseams : (∀ d ∈ (cutRule cfg hv).tile (descriptor host cfg) 0 x,
      SeamsAgree cfg (x.drop d.offset)) ↔
        ∀ r ∈ (cutRule cfg hv).rests x, naiveCut cfg r = (cutAt cfg r).1 := by
    simp only [CutRule.rests, (cutRule cfg hv).tile_eq_map_starts, List.forall_mem_map, descriptor,
      Nat.zero_add, naiveCut_eq_cutAt_iff hv]
  rw [naiveChunkBoundaries, naiveLoop_eq hv hfuel, List.nil_append, Option.map_some,
    withOffsets_tile,
    map_tile_descriptor host hv Prod.mk, hseams, Option.some.injEq]
  exact (cutRule cfg hv).tile_eq_tile_iff (naiveRule cfg hv) 0 x

/-- Four bytes on which the two agree. -/
theorem chunkAll_eq_naive_iff_tinyConfig :
    ∃ ds, chunkAll identityHost 5 (readerOf tinyPieces) tinyConfig = some (.ok ds) ∧
      (naiveChunkBoundaries tinyConfig 5 [7, 7, 7, 7]).map (withOffsets 0) =
        some (ds.map fun d => (d.offset, d.length)) ∧
      ∀ d ∈ ds, SeamsAgree tinyConfig ([7, 7, 7, 7].drop d.offset) := by
  have hagree : (naiveChunkBoundaries tinyConfig 5 [7, 7, 7, 7]).map (withOffsets 0) =
      some [(0, 3), (3, 1)] := by
    decide +kernel
  exact ⟨_, chunkAll_tinyPieces, hagree,
    (chunkAll_eq_naive_iff identityHost tinyConfig [7, 7, 7, 7] tinyPieces 5 _
    rfl delivers_tinyPieces (by decide) chunkAll_tinyPieces).1 hagree⟩

/-- The masks look at the second bit, into which the byte before moves. -/
def seamConfig : Config := { tinyConfig with maskS := 2, maskL := 2 }

/-- After the byte 1, the byte 2 hits for the oracle and not for the stream. -/
theorem chunkAll_ne_naive_seamConfig :
    ∃ ds, chunkAll identityHost 4 (readerOf [⟨[1, 2, 0], by decide⟩]) seamConfig = some (.ok ds) ∧
      ds.map (fun d => (d.offset, d.length)) = [(0, 3)] ∧
      (naiveChunkBoundaries seamConfig 4 [1, 2, 0]).map (withOffsets 0) =
        some [(0, 2), (2, 1)] := by
  let ds : List (ChunkDescriptor (List UInt8)) :=
    [⟨[1, 2, 0], 0, 3, CutPhase.postAverage.featureBit⟩]
  exact ⟨ds, by decide +kernel, rfl, by decide +kernel⟩

end Aegis.FastCdc
