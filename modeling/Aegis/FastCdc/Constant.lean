import Aegis.FastCdc.Boundaries
import Aegis.FastCdc.Gear

/-!
# Constant runs

Over a run of one byte `b` the fingerprint after `j` bytes is `gear[b] * (2^j - 1)`, and `2^j - 1`
is odd. So if the masks are the low `k` and `m` bits and no entry of the table is divisible by
`2^min(k, m)`, no fingerprint hits a mask: a constant input is cut at `max_chunk` and at its end,
nowhere else. The default configuration and the presets are such.
-/

namespace Aegis.FastCdc

/-- The masks are the low `k` and `m` bits, and every entry of the table has a bit in both. -/
structure LowMasks (cfg : Config) (k m : Nat) : Prop where
  k_pos : 1 ≤ k
  m_pos : 1 ≤ m
  maskS : cfg.maskS.toNat = 2 ^ k - 1
  maskL : cfg.maskL.toNat = 2 ^ m - 1
  gear : ∀ b, ¬ 2 ^ min k m ∣ (cfg.gear b).toNat

/-- The lengths of the chunks of a constant input of `n` bytes. -/
def constantLengths (maxChunk n : Nat) : List Nat :=
  List.replicate (n / maxChunk) maxChunk ++ if n % maxChunk = 0 then [] else [n % maxChunk]

theorem constantLengths_zero (maxChunk : Nat) : constantLengths maxChunk 0 = [] := by
  simp [constantLengths]

theorem constantLengths_of_lt (hn : 0 < n) (hlt : n < maxChunk) :
    constantLengths maxChunk n = [n] := by
  rw [constantLengths, Nat.div_eq_of_lt hlt, Nat.mod_eq_of_lt hlt, if_neg (by omega)]
  rfl

theorem constantLengths_of_le (hmax : 0 < maxChunk) (hle : maxChunk ≤ n) :
    constantLengths maxChunk n = maxChunk :: constantLengths maxChunk (n - maxChunk) := by
  rw [constantLengths, Nat.div_eq_sub_div hmax hle, List.replicate_succ, Nat.mod_eq_sub_mod hle]
  rfl

/-! ## The fingerprint -/

/-- **The fingerprint of a constant run.** -/
theorem toNat_gearFold_replicate (gear : GearTable) (b : UInt8) (j : Nat) :
    (gearFold gear 0 (List.replicate j b)).toNat = (gear b).toNat * (2 ^ j - 1) % 2 ^ 32 := by
  induction j with
  | zero => rfl
  | succ j ih =>
    have hstep : gearFold gear 0 (List.replicate (j + 1) b) =
        gearStep gear (gearFold gear 0 (List.replicate j b)) b := by
      rw [List.replicate_succ', gearFold, List.foldl_append]
      rfl
    have hpow : 2 ^ (j + 1) - 1 = 2 * (2 ^ j - 1) + 1 := by
      have := Nat.one_le_two_pow (n := j)
      rw [pow_succ]
      omega
    rw [hstep, gearStep, UInt32.toNat_add, UInt32.toNat_shiftLeft, ih, hpow]
    have hone : (1 : UInt32).toNat % 32 = 1 := rfl
    rw [hone, Nat.shiftLeft_eq, pow_one, Nat.mod_mul_mod, Nat.mod_add_mod]
    congr 1
    ring

/-- A word hits a mask of `k` low bits just if it is divisible by `2^k`. -/
theorem and_eq_zero_iff_dvd {mask fp : UInt32} (hmask : mask.toNat = 2 ^ k - 1) :
    fp &&& mask = 0 ↔ 2 ^ k ∣ fp.toNat := by
  rw [← UInt32.toNat_inj, UInt32.toNat_and, hmask, Nat.and_two_pow_sub_one_eq_mod,
    Nat.dvd_iff_mod_eq_zero]
  rfl

/-- **No hit** in a constant run. -/
theorem not_hits_replicate (hmask : mask.toNat = 2 ^ k - 1) (hgear : ¬ 2 ^ k ∣ (gear b).toNat)
    (hj : 0 < j) (hjn : j ≤ n) : ¬ Hits gear mask 0 (List.replicate n b) j := by
  rw [Hits, List.take_replicate, Nat.min_eq_left hjn, and_eq_zero_iff_dvd hmask,
    toNat_gearFold_replicate]
  have hk : k ≤ 32 := by
    by_contra hk
    have hlt := mask.toNat_lt
    have hpow : 2 ^ 33 ≤ 2 ^ k := Nat.pow_le_pow_right (by decide) (by omega)
    omega
  rw [Nat.dvd_mod_iff (pow_dvd_pow 2 hk)]
  -- the second factor is odd
  have hodd : Nat.Coprime (2 ^ k) (2 ^ j - 1) := by
    refine Nat.Coprime.pow_left k (Nat.coprime_two_left.2 ?_)
    exact Nat.Even.sub_odd Nat.one_le_two_pow (Nat.even_pow.2 ⟨even_two, by omega⟩) odd_one
  exact fun hdvd => hgear (hodd.dvd_of_dvd_mul_right hdvd)

theorem findCutScalar_replicate (hmask : mask.toNat = 2 ^ k - 1) (hgear : ¬ 2 ^ k ∣ (gear b).toNat)
    (n : Nat) : findCutScalar gear (List.replicate n b) mask = none := by
  cases h : findCutScalar gear (List.replicate n b) mask with
  | none => rfl
  | some len =>
    have hfound := found_findCutScalarFrom gear (List.replicate n b) mask 0
    rw [← findCutScalar, h, List.length_replicate] at hfound
    obtain ⟨hj, hle, hhit, -⟩ := hfound
    exact absurd hhit (not_hits_replicate hmask hgear hj hle)

/-! ## The cuts -/

section
variable {cfg : Config} {k m : Nat} (hlow : LowMasks cfg k m)
include hlow

/-- A constant run is cut at the end of the window. -/
theorem LowMasks.cutAt (b : UInt8) (n : Nat) :
    (cutAt cfg (List.replicate n b)).1 = min n cfg.maxChunk := by
  have hslice : ∀ a c, slice (List.replicate n b) a c = List.replicate (min (c - a) (n - a)) b := by
    intro a c
    rw [slice, List.drop_replicate, List.take_replicate]
  have hS : ¬ 2 ^ k ∣ (cfg.gear b).toNat := fun h =>
    hlow.gear b ((pow_dvd_pow 2 (Nat.min_le_left k m)).trans h)
  have hL : ¬ 2 ^ m ∣ (cfg.gear b).toNat := fun h =>
    hlow.gear b ((pow_dvd_pow 2 (Nat.min_le_right k m)).trans h)
  have h1 : phase1 cfg (List.replicate n b) = none := by
    rw [phase1, hslice, findCutScalar_replicate hlow.maskS hS, ite_self]
  have h2 : phase2 cfg (List.replicate n b) = none := by
    rw [phase2, hslice, findCutScalar_replicate hlow.maskL hL, ite_self]
  rw [FastCdc.cutAt, h1, h2, List.length_replicate]

/-- The lengths of the tiling of a constant run. -/
theorem LowMasks.lengths_tile (hv : cfg.Valid) (b : UInt8) (off n : Nat) :
    ((cutRule cfg hv).tile (cutPlace cfg) off (List.replicate n b)).map CutPoint.length =
      constantLengths cfg.maxChunk n := by
  have hmax : 0 < cfg.maxChunk := by
    obtain ⟨h0, h1, h2⟩ := hv
    omega
  induction n using Nat.strong_induction_on generalizing off with
  | _ n ih =>
    rcases Nat.eq_zero_or_pos n with rfl | hn
    · rw [constantLengths_zero, List.replicate_zero, (cutRule cfg hv).tile_nil, List.map_nil]
    · have hne : List.replicate n b ≠ [] := by
        rw [← List.length_pos_iff_ne_nil, List.length_replicate]
        exact hn
      rw [(cutRule cfg hv).tile_of_ne _ hne, List.map_cons, cutRule_cut, cutPlace,
        hlow.cutAt, List.drop_replicate, ih (n - min n cfg.maxChunk) (by omega)]
      dsimp only
      rcases Nat.lt_or_ge n cfg.maxChunk with hlt | hle
      · rw [Nat.min_eq_left hlt.le, Nat.sub_self, constantLengths_zero,
          constantLengths_of_lt hn hlt]
      · rw [Nat.min_eq_right hle, ← constantLengths_of_le hmax hle]

end

/-- The features of the pieces of an input can be computed if they are switched off, or if no piece
has `2^32` bytes. -/
theorem quiet_of (host : Host Digest) (hv : cfg.Valid)
    (h : cfg.computeFeatures = false ∨ min x.length cfg.maxChunk < 2 ^ 32) :
    Quiet host cfg hv x := by
  intro r hr
  obtain ⟨n, -, rfl⟩ := (cutRule cfg hv).exists_of_mem_tile _ hr
  rcases h with hoff | hlt
  · refine ⟨(cutAt cfg (x.drop n)).2.featureBit, ?_⟩
    rw [features, hoff]
    rfl
  · refine features_ok host cfg _ ?_
    have hle := cutAt_le hv (x.drop n)
    rw [List.length_drop] at hle
    rw [List.length_take]
    omega

/-- The default configuration and the presets have masks of low bits. -/
theorem lowMasks_builtin :
    LowMasks .promptDefault 18 19 ∧ LowMasks (.preset .smallBackup) 15 16 ∧
      LowMasks (.preset .largeMedia) 23 24 :=
  ⟨⟨by decide, by decide, rfl, rfl, Gear.not_dvd_of_words (by decide +kernel)⟩,
    ⟨by decide, by decide, rfl, rfl, Gear.not_dvd_of_words (by decide +kernel)⟩,
    ⟨by decide, by decide, rfl, rfl, Gear.not_dvd_of_words (by decide +kernel)⟩⟩

/-- **Constant runs.** The fingerprint after `j` bytes `b` is `gear[b] * (2^j - 1)`. With masks of
low bits that no entry of the table misses, the chunks of `n` bytes `b` are as many full ones as go
into `n`, and the remainder. That is what `cuts_all` returns, and `chunk_all` unless it counts
`2^32` equal bytes in a chunk. The default configuration and the presets are such. -/
theorem constant_runs :
    (∀ (gear : GearTable) (b : UInt8) (j : Nat),
      (gearFold gear 0 (List.replicate j b)).toNat = (gear b).toNat * (2 ^ j - 1) % 2 ^ 32) ∧
    (∀ {Digest : Type} (host : Host Digest) (cfg : Config) (k m : Nat),
      cfg.validate = .ok () → LowMasks cfg k m →
      ∀ (b : UInt8) (n : Nat) (pieces : List Delivery) (fuel : Nat),
      Delivers pieces (List.replicate n b) → n < fuel →
        (∃ cuts, cutsAll host fuel (readerOf pieces) cfg = some (.ok cuts) ∧
          cuts.map CutPoint.length = constantLengths cfg.maxChunk n) ∧
        (∀ ds, chunkAll host fuel (readerOf pieces) cfg = some (.ok ds) →
          ds.map ChunkDescriptor.length = constantLengths cfg.maxChunk n) ∧
        (cfg.computeFeatures = false ∨ min n cfg.maxChunk < 2 ^ 32 →
          ∃ ds, chunkAll host fuel (readerOf pieces) cfg = some (.ok ds))) ∧
    ∀ cfg ∈ [Config.promptDefault, .preset .smallBackup, .preset .largeMedia],
      cfg.validate = .ok () ∧ ∃ k m, LowMasks cfg k m := by
  refine ⟨toNat_gearFold_replicate, ?_, ?_⟩
  · intro Digest host cfg k m hcfg hlow b n pieces fuel hx hn
    have hv := Config.validate_eq_ok_iff.1 hcfg
    have hfuel : (List.replicate n b).length < fuel := by rwa [List.length_replicate]
    have hlengths := hlow.lengths_tile hv b 0 n
    refine ⟨⟨_, cutsAll_eq host hv hx hfuel, hlengths⟩, ?_, ?_⟩
    · intro ds hds
      obtain ⟨-, rfl⟩ := (chunkAll_eq_ok_iff host hv hx hfuel).1 hds
      rw [← hlengths, ← map_place_descriptors host hv, List.map_map]
      rfl
    · intro h
      refine ⟨_, (chunkAll_eq_ok_iff host hv hx hfuel).2 ⟨quiet_of host hv ?_, rfl⟩⟩
      rwa [List.length_replicate]
  · obtain ⟨hdefault, hsmall, hlarge⟩ := lowMasks_builtin
    intro cfg hcfg
    simp only [List.mem_cons, List.not_mem_nil, or_false] at hcfg
    rcases hcfg with rfl | rfl | rfl
    · exact ⟨rfl, 18, 19, hdefault⟩
    · exact ⟨rfl, 15, 16, hsmall⟩
    · exact ⟨rfl, 23, 24, hlarge⟩

/-- Chunks of at most three bytes, and an odd table. -/
def oddConfig : Config := { tinyConfig with gear := fun _ => 1 }

theorem lowMasks_oddConfig : LowMasks oddConfig 1 2 := by
  have hodd : ¬ 2 ^ min 1 2 ∣ (1 : UInt32).toNat := by decide
  exact ⟨by decide, by decide, rfl, rfl, fun _ => hodd⟩

/-- Four equal bytes. -/
theorem constant_runs_oddConfig :
    LowMasks oddConfig 1 2 ∧
      ∃ ds, chunkAll identityHost 5 (readerOf tinyPieces) oddConfig = some (.ok ds) ∧
        ds.map ChunkDescriptor.length = [3, 1] := by
  obtain ⟨-, hlengths, hreturns⟩ := constant_runs.2.1 identityHost oddConfig 1 2 rfl
    lowMasks_oddConfig 7 4 tinyPieces 5 delivers_tinyPieces (by decide)
  obtain ⟨ds, hds⟩ := hreturns (.inr (by decide))
  exact ⟨lowMasks_oddConfig, ds, hds, hlengths ds hds⟩

end Aegis.FastCdc
