import Aegis.FastCdc.Chunking

/-!
# A cut depends on the bytes ahead only

A chunk's cut is a function of the bytes from its start on (`cutAt`), and of those it reads no more
than a full window. So chunking can be taken up at any boundary (`chunkAll_restart`): from a
boundary that two inputs have in a common suffix on, they are chunked alike. And a cut that was not
forced by the end of the input stays where it is when the input grows (`chunkAll_append_stable`).
-/

namespace Aegis.FastCdc

/-! ## Taking up at a boundary -/

section
variable {Digest : Type}

/-- The descriptors from the stream offset `o` on. -/
def fromOffset (o : Nat) (ds : List (ChunkDescriptor Digest)) : List (ChunkDescriptor Digest) :=
  ds.filter fun d => o ≤ d.offset

/-- The same chunk in a stream that begins `o` bytes later. -/
def relativeTo (o : Nat) (d : ChunkDescriptor Digest) : ChunkDescriptor Digest :=
  { d with offset := d.offset - o }

variable (host : Host Digest) {cfg : Config} (hv : cfg.Valid) {x : List UInt8}

/-- The offset of a descriptor is a boundary. -/
theorem offset_mem_starts (hd : d ∈ (cutRule cfg hv).tile (descriptor host cfg) 0 x) :
    d.offset ∈ (cutRule cfg hv).starts x :=
  (cutRule cfg hv).place_mem_starts (fun _ _ => rfl) hd

/-- From a boundary on, the descriptors are those of the rest. -/
theorem fromOffset_tile (hn : n ∈ (cutRule cfg hv).starts x) :
    fromOffset n ((cutRule cfg hv).tile (descriptor host cfg) 0 x) =
      (cutRule cfg hv).tile (descriptor host cfg) n (x.drop n) :=
  (cutRule cfg hv).filter_tile (fun _ _ => rfl) hn

/-- Starting the count of bytes elsewhere. -/
theorem relativeTo_tile (k n : Nat) (r : List UInt8) :
    ((cutRule cfg hv).tile (descriptor host cfg) (n + k) r).map (relativeTo k) =
      (cutRule cfg hv).tile (descriptor host cfg) n r := by
  rw [(cutRule cfg hv).tile_add, (cutRule cfg hv).map_tile]
  congr 1
  funext o r
  simp [relativeTo, descriptor]

/-- The rest of an input that does not panic does not. -/
theorem Quiet.drop (h : Quiet host cfg hv x) (hn : n ∈ (cutRule cfg hv).starts x) :
    Quiet host cfg hv (x.drop n) := by
  obtain ⟨before, heq, -⟩ := (cutRule cfg hv).tile_split (f := fun _ r => r) hn 0
  intro r hr
  refine h r ?_
  rw [CutRule.rests, heq, (cutRule cfg hv).tile_add]
  exact List.mem_append_right _ hr

end

/-- **Restart and resynchronisation.** Chunking an input again from a boundary gives the descriptors
from there on, with offsets counted from there. So if `a ++ s` and `b ++ s` have a boundary at the
same place in `s`, they have the same chunks in `s` from there on. -/
theorem chunkAll_restart {Digest : Type} (host : Host Digest) (cfg : Config)
    (hcfg : cfg.validate = .ok ()) :
    (∀ x p fuel ds, Delivers p x → x.length < fuel →
      chunkAll host fuel (readerOf p) cfg = some (.ok ds) →
      ∀ d ∈ ds, ∀ q fuel', Delivers q (x.drop d.offset) → (x.drop d.offset).length < fuel' →
        chunkAll host fuel' (readerOf q) cfg =
          some (.ok ((fromOffset d.offset ds).map (relativeTo d.offset)))) ∧
    ∀ a b s p q fuel fuel' da db, Delivers p (a ++ s) → Delivers q (b ++ s) →
      (a ++ s).length < fuel → (b ++ s).length < fuel' →
      chunkAll host fuel (readerOf p) cfg = some (.ok da) →
      chunkAll host fuel' (readerOf q) cfg = some (.ok db) →
      ∀ n, (∃ d ∈ da, d.offset = n + a.length) → (∃ d ∈ db, d.offset = n + b.length) →
        (fromOffset (n + a.length) da).map (relativeTo a.length) =
          (fromOffset (n + b.length) db).map (relativeTo b.length) := by
  have hv := Config.validate_eq_ok_iff.1 hcfg
  constructor
  · intro x p fuel ds hp hfuel hds d hd q fuel' hq hfuel'
    obtain ⟨hquiet, rfl⟩ := (chunkAll_eq_ok_iff host hv hp hfuel).1 hds
    have hstart := offset_mem_starts host hv hd
    refine (chunkAll_eq_ok_iff host hv hq hfuel').2 ⟨hquiet.drop host hv hstart, ?_⟩
    rw [fromOffset_tile host hv hstart]
    simpa using relativeTo_tile host hv d.offset 0 (x.drop d.offset)
  · intro a b s p q fuel fuel' da db hp hq hfuel hfuel' hda hdb n ha hb
    -- from the boundary on, both are the tiling of what is left of `s`
    have hrest : ∀ (c : List UInt8) (r : List Delivery) (fuel : Nat)
        (dc : List (ChunkDescriptor Digest)), Delivers r (c ++ s) → (c ++ s).length < fuel →
        chunkAll host fuel (readerOf r) cfg = some (.ok dc) →
        (∃ d ∈ dc, d.offset = n + c.length) →
        (fromOffset (n + c.length) dc).map (relativeTo c.length) =
          (cutRule cfg hv).tile (descriptor host cfg) n (s.drop n) := by
      intro c r fuel dc hr hfuel hdc hn
      obtain ⟨-, rfl⟩ := (chunkAll_eq_ok_iff host hv hr hfuel).1 hdc
      obtain ⟨d, hd, hoff⟩ := hn
      have hstart := hoff ▸ offset_mem_starts host hv hd
      have hdrop : (c ++ s).drop (n + c.length) = s.drop n := by
        rw [Nat.add_comm, List.drop_length_add_append]
      rw [fromOffset_tile host hv hstart, relativeTo_tile host hv, hdrop]
    rw [hrest a p fuel da hp hfuel hda ha, hrest b q fuel' db hq hfuel' hdb hb]

/-- Four bytes are cut after three; the fourth alone is the chunk that follows. -/
theorem chunkAll_restart_tinyConfig :
    ∃ ds, chunkAll identityHost 5 (readerOf tinyPieces) tinyConfig = some (.ok ds) ∧
      ds.map ChunkDescriptor.offset = [0, 3] ∧
      chunkAll identityHost 2 (readerOf [⟨[7], by decide⟩]) tinyConfig =
        some (.ok ((fromOffset 3 ds).map (relativeTo 3))) := by
  exact ⟨_, chunkAll_tinyPieces, rfl, (chunkAll_restart identityHost tinyConfig rfl).1 [7, 7, 7, 7]
    tinyPieces 5 _ delivers_tinyPieces (by decide) chunkAll_tinyPieces
    ⟨[7], 3, 1, CutPhase.eofTail.featureBit⟩ (by simp) [⟨[7], by decide⟩] 2 ⟨by simp, rfl⟩
    (by decide)⟩

/-! ## Growing the input -/

section
variable {cfg : Config}

/-- The chunk carries the `TRUNCATED` bit. -/
def ChunkDescriptor.truncated {Digest : Type} (d : ChunkDescriptor Digest) : Bool :=
  d.contentFeatures &&& CutPhase.eofTail.featureBit ≠ 0

variable {a b len : Nat} {s : List UInt8}

/-- A scan that hits does not look further. -/
theorem findCutScalar_append (h : findCutScalar gear data mask = some len) (more : List UInt8) :
    findCutScalar gear (data ++ more) mask = some len := by
  unfold findCutScalar findCutScalarFrom at h ⊢
  rw [findCutLoop_append]
  have hall : findCutLoop gear mask (data ++ []) 0 0 = _ := findCutLoop_append data [] 0 0
  rw [List.append_nil, h] at hall
  cases hit : firstHit mask (suffixSums gear 0 data) with
  | some lane =>
    rw [hit] at hall
    exact hall.symm
  | none =>
    rw [hit] at hall
    cases hall

/-- A slice in two parts. -/
theorem slice_append_slice (hab : a ≤ b) (hbb : b ≤ b') :
    slice l a b ++ slice l b b' = slice l a b' := by
  have hsplit : b' - a = (b - a) + (b' - b) := by omega
  have hdrop : a + (b - a) = b := by omega
  unfold slice
  rw [hsplit, List.take_add, List.drop_drop, hdrop]

theorem slice_append_left (m : List UInt8) (hb : b ≤ l.length) :
    slice (l ++ m) a b = slice l a b := by
  rw [← slice_take (Nat.le_refl b), List.take_append_of_le_length hb, slice_take (Nat.le_refl b)]

/-- A hit in a slice of `s` is a hit in a longer slice of more bytes. -/
theorem findCutScalar_slice_append (hab : a ≤ b) (hbb : b ≤ b') (hb : b ≤ s.length)
    (h : findCutScalar gear (slice s a b) mask = some len) (y : List UInt8) :
    findCutScalar gear (slice (s ++ y) a b') mask = some len := by
  rw [← slice_append_slice hab hbb, slice_append_left y hb]
  exact findCutScalar_append h _

theorem phase1_append (hv : cfg.Valid) (h : phase1 cfg s = some len) (y : List UInt8) :
    phase1 cfg (s ++ y) = some len := by
  obtain ⟨h0, h1, h2⟩ := hv
  unfold phase1 at h ⊢
  rw [List.length_append]
  split at h
  · next hgt =>
    rw [if_pos (by omega)]
    exact findCutScalar_slice_append (by omega) (by omega) (by omega) h y
  · cases h

theorem phase2_append (h : phase2 cfg s = some len) (y : List UInt8) :
    phase2 cfg (s ++ y) = some len := by
  unfold phase2 at h ⊢
  rw [List.length_append]
  split at h
  · next hgt =>
    rw [if_pos (by omega)]
    exact findCutScalar_slice_append (by omega) (by omega) (by omega) h y
  · cases h

/-- The phase-1 window of more than `avg` bytes ends at `avg`, whatever follows. -/
theorem phase1_append_of_avg (hv : cfg.Valid) (hlen : cfg.avgChunk ≤ s.length) (y : List UInt8) :
    phase1 cfg (s ++ y) = phase1 cfg s := by
  obtain ⟨h0, h1, h2⟩ := hv
  have hwin : min (min s.length cfg.maxChunk) cfg.avgChunk = cfg.avgChunk := by omega
  have hwin' : min (min (s.length + y.length) cfg.maxChunk) cfg.avgChunk = cfg.avgChunk := by omega
  unfold phase1
  rw [List.length_append, hwin, hwin', slice_append_left y hlen, if_pos (by omega),
    if_pos (by omega)]

/-- The phase-2 window of a full window is the same, whatever follows. -/
theorem phase2_append_of_max (hlen : cfg.maxChunk ≤ s.length) (y : List UInt8) :
    phase2 cfg (s ++ y) = phase2 cfg s := by
  have hwin : min s.length cfg.maxChunk = cfg.maxChunk := by omega
  have hwin' : min (s.length + y.length) cfg.maxChunk = cfg.maxChunk := by omega
  unfold phase2
  rw [List.length_append, hwin, hwin', slice_append_left y hlen]

/-- **A cut that the end of the input did not force stays** when the input grows. -/
theorem cutAt_append (hv : cfg.Valid) (h : (cutAt cfg s).2 ≠ .eofTail) (y : List UInt8) :
    (cutAt cfg (s ++ y)).1 = (cutAt cfg s).1 := by
  unfold cutAt at h ⊢
  cases h1 : phase1 cfg s with
  | some len => rw [phase1_append hv h1]
  | none =>
    cases h2 : phase2 cfg s with
    | some len =>
      have hb := phase2_bounds h2
      rw [phase1_append_of_avg hv (by omega), h1, phase2_append h2]
    | none =>
      rw [h1, h2] at h
      -- nothing was hit, so the cut is at the ceiling and not at the end
      have hmax : cfg.maxChunk ≤ s.length := by
        by_contra hlt
        exact h (if_pos (by omega))
      have havg := hv.2.2
      rw [phase1_append_of_avg hv (by omega), h1, phase2_append_of_max hmax, h2, List.length_append]
      show min (s.length + y.length) cfg.maxChunk = min s.length cfg.maxChunk
      omega

/-- A cut that the end of the input forces takes all of it. -/
theorem cutAt_of_eofTail (h : (cutAt cfg s).2 = .eofTail) : (cutAt cfg s).1 = s.length := by
  unfold cutAt at h ⊢
  split at h
  · cases h
  · cases h
  · dsimp only at h ⊢
    split at h
    · omega
    · cases h

theorem or_and_self_right (a b : UInt32) : (a ||| b) &&& b = b := by
  apply UInt32.toBitVec_inj.1
  ext i
  simp
  grind

/-- A chunk that the end of the input forces carries the bit. -/
theorem truncated_descriptor (host : Host Digest) (off : Nat) (h : (cutAt cfg s).2 = .eofTail)
    (hf : HasFeatures host cfg s) : (descriptor host cfg off s).truncated = true := by
  obtain ⟨v, hv⟩ := hf
  have hbit : v &&& CutPhase.eofTail.featureBit = CutPhase.eofTail.featureBit := by
    rw [h] at hv
    obtain ⟨e, rfl, -⟩ := features_eq_or hv
    exact or_and_self_right e _
  have hcontent : (descriptor host cfg off s).contentFeatures = v := by
    simp [descriptor, hv, Except.toOption]
  rw [ChunkDescriptor.truncated, hcontent, hbit]
  decide

end

/-- What identifies a chunk: its address and its place. -/
def ChunkDescriptor.identity {Digest : Type} (d : ChunkDescriptor Digest) : Digest × Nat × Nat :=
  (d.hash, d.offset, d.length)

/-- **Append stability.** The descriptors of `x`, without a last one that carries the `TRUNCATED`
bit, begin those of `x ++ y`. -/
theorem chunkAll_append_stable {Digest : Type} (host : Host Digest) (cfg : Config)
    (x y : List UInt8) (p q : List Delivery) (fuel fuel' : Nat)
    (dx dxy : List (ChunkDescriptor Digest)) (hcfg : cfg.validate = .ok ()) (hp : Delivers p x)
    (hq : Delivers q (x ++ y)) (hfuel : x.length < fuel) (hfuel' : (x ++ y).length < fuel')
    (hdx : chunkAll host fuel (readerOf p) cfg = some (.ok dx))
    (hdxy : chunkAll host fuel' (readerOf q) cfg = some (.ok dxy)) :
    (CutRule.trim ChunkDescriptor.truncated dx).map ChunkDescriptor.identity <+:
      dxy.map ChunkDescriptor.identity := by
  have hv := Config.validate_eq_ok_iff.1 hcfg
  obtain ⟨hquiet, rfl⟩ := (chunkAll_eq_ok_iff host hv hp hfuel).1 hdx
  obtain ⟨-, rfl⟩ := (chunkAll_eq_ok_iff host hv hq hfuel').1 hdxy
  refine (cutRule cfg hv).trim_tile_isPrefix y _ _ (fun r hr off => ?_) 0
  by_cases hphase : (cutAt cfg r).2 = .eofTail
  · exact .inl ⟨truncated_descriptor host off hphase (hquiet r hr), cutAt_of_eofTail hphase⟩
  · have hcut := cutAt_append hv hphase y
    have htake : (r ++ y).take (cutAt cfg r).1 = r.take (cutAt cfg r).1 :=
      List.take_append_of_le_length ((cutRule cfg hv).le r)
    refine .inr ⟨hcut, ?_⟩
    simp only [ChunkDescriptor.identity, descriptor, hcut, htake]

/-- Four bytes end in a truncated chunk; with two more it becomes a chunk of three. -/
theorem chunkAll_append_stable_tinyConfig :
    ∃ dx dxy, chunkAll identityHost 5 (readerOf tinyPieces) tinyConfig = some (.ok dx) ∧
      chunkAll identityHost 7 (readerOf [⟨[7, 7, 7, 7, 7, 7], by decide⟩]) tinyConfig =
        some (.ok dxy) ∧
      (CutRule.trim ChunkDescriptor.truncated dx).map ChunkDescriptor.identity =
        [([7, 7, 7], 0, 3)] ∧
      (CutRule.trim ChunkDescriptor.truncated dx).map ChunkDescriptor.identity <+:
        dxy.map ChunkDescriptor.identity := by
  let dx : List (ChunkDescriptor (List UInt8)) :=
    [⟨[7, 7, 7], 0, 3, CutPhase.hardMax.featureBit⟩, ⟨[7], 3, 1, CutPhase.eofTail.featureBit⟩]
  let dxy : List (ChunkDescriptor (List UInt8)) :=
    [⟨[7, 7, 7], 0, 3, CutPhase.hardMax.featureBit⟩, ⟨[7, 7, 7], 3, 3, CutPhase.hardMax.featureBit⟩]
  have hdx : chunkAll identityHost 5 (readerOf tinyPieces) tinyConfig = some (.ok dx) := by
    decide +kernel
  have hdxy : chunkAll identityHost 7 (readerOf [⟨[7, 7, 7, 7, 7, 7], by decide⟩]) tinyConfig =
      some (.ok dxy) := by
    decide +kernel
  exact ⟨dx, dxy, hdx, hdxy, by decide +kernel,
    chunkAll_append_stable identityHost tinyConfig [7, 7, 7, 7] [7, 7] tinyPieces
      [⟨[7, 7, 7, 7, 7, 7], by decide⟩] 5 7 dx dxy rfl delivers_tinyPieces ⟨by simp, rfl⟩
      (by decide) (by decide) hdx hdxy⟩

end Aegis.FastCdc
