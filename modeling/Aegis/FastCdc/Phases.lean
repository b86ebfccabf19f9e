import Aegis.FastCdc.Locality
import Aegis.FastCdc.Rule

/-!
# What the phase bits say

A descriptor's `content_features` are the quantised entropy in the low byte and one of four phase
bits above it (`carries_descriptor`). `PHASE1` and `PHASE2` say which mask the cut hit. The other
two tell a chunk that the cap clipped from one that the end of the input cut off, and they go by the
end-of-file flag: with exactly `max_chunk` bytes left the window is full before the flag is up, so
the last chunk of such an input is reported as clipped, with nothing behind it (`EndsFull`). That is
the only chunk whose bits are wrong (`truthful_descriptor_iff`).
-/

namespace Aegis.FastCdc

/-! ## What the bits mean -/

section
variable {Digest : Type}

/-- The descriptor carries the bit of a phase. -/
def ChunkDescriptor.Carries (d : ChunkDescriptor Digest) (p : CutPhase) : Prop :=
  d.contentFeatures &&& p.featureBit ≠ 0

/-- The quantised entropy of a payload fits a byte. -/
def Host.QuantizesToByte (host : Host Digest) : Prop :=
  ∀ bytes, (host.quantize (histogram bytes) bytes.length).toNat ≤ 255

/-- A cut after `n` of the remaining bytes `s` is a hit of the strict mask. -/
def StrictCut (cfg : Config) (s : List UInt8) (n : Nat) : Prop :=
  ∃ j ∈ strictHits cfg s, n = cfg.minChunk + j

/-- A cut after `n` of the remaining bytes `s` is a hit of the loose mask. -/
def LooseCut (cfg : Config) (s : List UInt8) (n : Nat) : Prop :=
  ∃ j ∈ looseHits cfg s, n = cfg.avgChunk + j

/-- The phase bits of a chunk of the remaining bytes `s` are truthful. -/
structure Truthful (cfg : Config) (s : List UInt8) (d : ChunkDescriptor Digest) : Prop where
  one : ∃! p, d.Carries p
  phase1 : d.Carries .subAverage ↔ StrictCut cfg s d.length
  phase2 : d.Carries .postAverage ↔ LooseCut cfg s d.length
  hardMax : d.Carries .hardMax ↔ ¬ StrictCut cfg s d.length ∧ ¬ LooseCut cfg s d.length ∧
    d.length = cfg.maxChunk ∧ d.length < s.length
  truncated : d.Carries .eofTail ↔ ¬ StrictCut cfg s d.length ∧ ¬ LooseCut cfg s d.length ∧
    d.length = s.length

/-- The remaining bytes fill the window exactly, and no mask is hit. -/
structure EndsFull (cfg : Config) (s : List UInt8) : Prop where
  full : s.length = cfg.maxChunk
  strict : strictHits cfg s = ∅
  loose : looseHits cfg s = ∅

end

/-! ## The bits of a descriptor -/

/-- A byte leaves the phase bits alone, and the four are different bits. -/
theorem and_featureBit_ne_zero_iff (he : e.toNat ≤ 255) (p q : CutPhase) :
    (e ||| p.featureBit) &&& q.featureBit ≠ 0 ↔ p = q := by
  have hlow : e &&& 255 = e := by
    rw [← UInt32.toNat_inj, UInt32.toNat_and]
    exact (Nat.and_two_pow_sub_one_eq_mod e.toNat 8).trans (Nat.mod_eq_of_lt (by omega))
  have hmiss : e &&& q.featureBit = 0 := by
    have hbit : 255 &&& q.featureBit = 0 := by cases q <;> rfl
    rw [← hlow, UInt32.and_assoc, hbit, UInt32.and_zero]
  have hdistrib : (e ||| p.featureBit) &&& q.featureBit =
      (e &&& q.featureBit) ||| (p.featureBit &&& q.featureBit) :=
    UInt32.toBitVec_inj.1 BitVec.and_or_distrib_right
  rw [hdistrib, hmiss, UInt32.zero_or]
  cases p <;> cases q <;> decide

section
variable {Digest : Type} {host : Host Digest} {cfg : Config} {s : List UInt8}

/-- **A descriptor carries the bit of the phase that cut it**, and no other. -/
theorem carries_descriptor (hq : host.QuantizesToByte) (hf : HasFeatures host cfg s) (off : Nat)
    (q : CutPhase) : (descriptor host cfg off s).Carries q ↔ (cutAt cfg s).2 = q := by
  obtain ⟨v, hv⟩ := hf
  have hcontent : (descriptor host cfg off s).contentFeatures = v := by
    rw [descriptor, hv]
    rfl
  obtain ⟨e, rfl, he⟩ := features_eq_or hv
  have hbyte : e.toNat ≤ 255 := by
    rcases he with rfl | rfl
    · exact Nat.zero_le 255
    · exact hq _
  rw [ChunkDescriptor.Carries, hcontent, and_featureBit_ne_zero_iff hbyte]

/-! ## The cut of each phase -/

theorem not_strictCut (h : strictHits cfg s = ∅) (n : Nat) : ¬ StrictCut cfg s n := by
  rintro ⟨j, hj, -⟩
  rw [h] at hj
  exact hj

theorem not_looseCut (h : looseHits cfg s = ∅) (n : Nat) : ¬ LooseCut cfg s n := by
  rintro ⟨j, hj, -⟩
  rw [h] at hj
  exact hj

/-- A hit of the loose mask lies above the average, one of the strict mask does not. -/
theorem not_looseCut_of_strictCut (h : StrictCut cfg s n) : ¬ LooseCut cfg s n := by
  obtain ⟨i, ⟨-, hi, -⟩, rfl⟩ := h
  rintro ⟨j, ⟨hj, -, -⟩, heq⟩
  omega

/-- **The three ways to cut**: at a hit of the strict mask, at a hit of the loose one, or at the end
of the window, where neither mask is hit. -/
theorem cutAt_phases (cfg : Config) (s : List UInt8) :
    ((cutAt cfg s).2 = .subAverage ∧ StrictCut cfg s (cutAt cfg s).1) ∨
      ((cutAt cfg s).2 = .postAverage ∧ LooseCut cfg s (cutAt cfg s).1) ∨
      (cutAt cfg s = (min s.length cfg.maxChunk,
          if s.length < cfg.maxChunk then .eofTail else .hardMax) ∧
        strictHits cfg s = ∅ ∧ looseHits cfg s = ∅) := by
  have hstrict : phase1 cfg s = none → strictHits cfg s = ∅ := by
    intro h
    rcases Nat.lt_or_ge cfg.minChunk s.length with hlen | hlen
    · exact strictHits_eq_empty h hlen
    · exact windowHits_of_le (by omega)
  rw [cutAt]
  cases h1 : phase1 cfg s with
  | some j => exact .inl ⟨rfl, j, (isLeast_of_phase1 h1).1, rfl⟩
  | none =>
    cases h2 : phase2 cfg s with
    | some j => exact .inr (.inl ⟨rfl, j, (isLeast_of_phase2 h2).1, rfl⟩)
    | none => exact .inr (.inr ⟨rfl, hstrict h1, looseHits_eq_empty h2⟩)

/-- **Where the bits are truthful.** -/
theorem truthful_descriptor_iff (hv : cfg.Valid) (hq : host.QuantizesToByte)
    (hf : HasFeatures host cfg s) (off : Nat) :
    Truthful cfg s (descriptor host cfg off s) ↔ ¬ EndsFull cfg s := by
  have hcarries := carries_descriptor hq hf off
  have hlen : (descriptor host cfg off s).length = (cutAt cfg s).1 :=
    (cutRule cfg hv).length_take_cut s
  have hone : ∃! p, (descriptor host cfg off s).Carries p :=
    ⟨_, (hcarries _).2 rfl, fun p hp => ((hcarries p).1 hp).symm⟩
  rcases cutAt_phases cfg s with ⟨hphase, hcut⟩ | ⟨hphase, hcut⟩ | ⟨hcut, hstrict, hloose⟩
  · have hnot := not_looseCut_of_strictCut hcut
    have hhit : ¬ EndsFull cfg s := fun h => not_strictCut h.strict _ hcut
    refine ⟨fun _ => hhit, fun _ => ⟨hone, ?_, ?_, ?_, ?_⟩⟩ <;>
      simp [hcarries, hphase, hlen, hcut, hnot]
  · have hnot : ¬ StrictCut cfg s (cutAt cfg s).1 := fun h => not_looseCut_of_strictCut h hcut
    have hhit : ¬ EndsFull cfg s := fun h => not_looseCut h.loose _ hcut
    refine ⟨fun _ => hhit, fun _ => ⟨hone, ?_, ?_, ?_, ?_⟩⟩ <;>
      simp [hcarries, hphase, hlen, hcut, hnot]
  · have hnotS := not_strictCut hstrict
    have hnotL := not_looseCut hloose
    rw [hcut] at hcarries hlen
    dsimp only at hcarries hlen
    -- the end-of-file flag is up below a full window
    rcases Nat.lt_trichotomy s.length cfg.maxChunk with hlt | heq | hgt
    · rw [if_pos hlt] at hcarries
      rw [Nat.min_eq_left hlt.le] at hlen
      refine ⟨fun _ h => absurd h.full hlt.ne, fun _ => ⟨hone, ?_, ?_, ?_, ?_⟩⟩ <;>
        simp [hcarries, hlen, hnotS, hnotL]
    · rw [if_neg (by omega)] at hcarries
      refine ⟨fun h => ?_, fun h => absurd ⟨heq, hstrict, hloose⟩ h⟩
      obtain ⟨-, -, -, hpending⟩ := h.hardMax.1 ((hcarries .hardMax).2 rfl)
      omega
    · rw [if_neg (by omega)] at hcarries
      rw [Nat.min_eq_right hgt.le] at hlen
      refine ⟨fun _ h => absurd h.full hgt.ne', fun _ => ⟨hone, ?_, ?_, ?_, ?_⟩⟩ <;>
        simp [hcarries, hlen, hnotS, hnotL, hgt, hgt.ne]

end

/-- **The phase bits are truthful except at a full last window.** Every descriptor that a
`next_chunk` call emits on the remaining bytes `s`, and every one of `chunk_all`, has truthful bits
just if the remaining bytes do not fill the window exactly without a hit; `chunk_all` returns unless
it counts `2^32` equal bytes in a chunk. -/
theorem truthful_iff_not_endsFull {Digest : Type} (host : Host Digest)
    (hq : host.QuantizesToByte) :
    (∀ (st st' : FastCDCStream) (s : List UInt8) (d : ChunkDescriptor Digest), Stands st s →
      nextChunk host st = (.ok (some d), st') →
      (Truthful st.cfg s d ↔ ¬ EndsFull st.cfg s)) ∧
    ∀ (cfg : Config) (x : List UInt8) (pieces : List Delivery) (fuel : Nat),
      cfg.validate = .ok () → Delivers pieces x → x.length < fuel →
      (∀ ds, chunkAll host fuel (readerOf pieces) cfg = some (.ok ds) → ∀ d ∈ ds,
        (Truthful cfg (x.drop d.offset) d ↔ ¬ EndsFull cfg (x.drop d.offset))) ∧
      (cfg.maxChunk < 2 ^ 32 → ∃ ds, chunkAll host fuel (readerOf pieces) cfg = some (.ok ds)) := by
  refine ⟨?_, ?_⟩
  · intro st st' s d hstands hnext
    obtain ⟨st₁, -, ⟨e, hcall, -⟩ | ⟨hcall, -⟩⟩ := hstands.nextChunk host
    · cases hcall.symm.trans hnext
    · have hemit : emit host st.cfg st.globalOffset s = .ok (some d) :=
        (Prod.mk.inj (hcall.symm.trans hnext)).1
      have hs : s ≠ [] := by
        rintro rfl
        cases hemit
      rcases emit_cases host st.cfg st.globalOffset hs with ⟨hf, heq⟩ | ⟨p, -, heq⟩
      · cases heq.symm.trans hemit
        exact truthful_descriptor_iff st.valid hq hf _
      · cases heq.symm.trans hemit
  · intro cfg x pieces fuel hcfg hx hfuel
    have hv := Config.validate_eq_ok_iff.1 hcfg
    refine ⟨?_, ?_⟩
    · intro ds hds d hd
      obtain ⟨hquiet, rfl⟩ := (chunkAll_eq_ok_iff host hv hx hfuel).1 hds
      rw [(cutRule cfg hv).tile_eq_map_starts] at hd
      obtain ⟨n, hn, rfl⟩ := List.mem_map.1 hd
      have hrest : x.drop n ∈ (cutRule cfg hv).rests x := by
        rw [CutRule.rests, (cutRule cfg hv).tile_eq_map_starts]
        exact List.mem_map_of_mem hn
      have hoff : (descriptor host cfg (0 + n) (x.drop n)).offset = n := Nat.zero_add n
      rw [hoff]
      exact truthful_descriptor_iff hv hq (hquiet _ hrest) _
    · intro hmax
      exact ⟨_, (chunkAll_eq_ok_iff host hv hx hfuel).2
        ⟨fun r _ => hasFeatures_of_lt host hv hmax r, rfl⟩⟩

/-- Four bytes: a full chunk with one byte pending, and the tail. -/
theorem truthful_iff_not_endsFull_tinyConfig :
    identityHost.QuantizesToByte ∧
      ∃ ds, chunkAll identityHost 5 (readerOf tinyPieces) tinyConfig = some (.ok ds) ∧
        ds.length = 2 ∧ ∀ d ∈ ds, Truthful tinyConfig ([7, 7, 7, 7].drop d.offset) d := by
  have hq : identityHost.QuantizesToByte := fun _ => Nat.zero_le 255
  obtain ⟨hiff, -⟩ := (truthful_iff_not_endsFull identityHost hq).2 tinyConfig [7, 7, 7, 7]
    tinyPieces 5 rfl delivers_tinyPieces (by decide)
  refine ⟨hq, _, chunkAll_tinyPieces, rfl,
    fun d hd => (hiff _ chunkAll_tinyPieces d hd).2 fun hfull => ?_⟩
  have hlen := hfull.full
  simp only [List.mem_cons, List.not_mem_nil, or_false] at hd
  rcases hd with rfl | rfl
  · cases hlen
  · cases hlen

/-- Three bytes fill the window: `HARD_MAX`, with nothing pending. -/
theorem hardMax_at_end :
    ∃ d : ChunkDescriptor (List UInt8),
      chunkAll identityHost 4 (readerOf [⟨[7, 7, 7], by decide⟩]) tinyConfig = some (.ok [d]) ∧
        d.Carries .hardMax ∧ ¬ d.Carries .eofTail ∧ d.offset + d.length = [7, 7, 7].length ∧
        ¬ Truthful tinyConfig ([7, 7, 7].drop d.offset) d := by
  let d : ChunkDescriptor (List UInt8) := ⟨[7, 7, 7], 0, 3, CutPhase.hardMax.featureBit⟩
  have hcarries : d.Carries .hardMax := by
    unfold ChunkDescriptor.Carries
    decide
  refine ⟨d, by decide +kernel, hcarries, ?_, rfl, fun h => ?_⟩
  · unfold ChunkDescriptor.Carries
    decide
  · obtain ⟨-, -, -, hpending⟩ := h.hardMax.1 hcarries
    exact absurd hpending (by decide)

end Aegis.FastCdc
