import Aegis.FastCdc.GoWindows
import Aegis.FastCdc.Oracle

/-!
# The Go chunker and the stream it is ported from

The package comment of `internal/fastcdc/fastcdc.go` declares it a port of `crates/fastcdc`. Both
are tilings by a cut rule, so they give the same offsets and sizes exactly when they cut every chunk
of the stream alike. The rules differ in what they test: the stream starts a fingerprint after
`min_chunk` bytes and another after `avg_chunk`, while the port rolls one from the first byte, tests
it from `MinChunk` itself on, and beyond `AvgChunk` goes over the chunk a second time, from its
first byte and without a minimum. They also differ in what they look at: the stream has `max_chunk`
bytes ahead, the port whatever its last read left in the buffer.

`Differ` lists the places where a chunk of the stream comes out otherwise in the port: the end of
its window, the 31 bytes after the minimum, where the two fingerprints are not yet the same, and the
second pass. From 32 bytes after the minimum on the first pass and the stream hit alike
(`firstHit_iff_restarted`).
-/

namespace Aegis.FastCdc

/-- The Go configuration with the sizes and masks of a configuration of the stream. -/
def Config.toGo (cfg : Config) : Go.Config where
  minChunk := cfg.minChunk
  avgChunk := cfg.avgChunk
  maxChunk := cfg.maxChunk
  maskS := cfg.maskS
  maskL := cfg.maskL

section
variable {cfg : Config}

theorem Config.Valid.toGo_minChunk (hv : cfg.Valid) : cfg.toGo.params.minChunk = cfg.minChunk :=
  Go.orDefault_of_pos (Int.natCast_pos.2 hv.1) _

theorem Config.Valid.toGo_avgChunk (hv : cfg.Valid) : cfg.toGo.params.avgChunk = cfg.avgChunk :=
  Go.orDefault_of_pos (Int.natCast_pos.2 (hv.1.trans hv.2.1)) _

theorem Config.Valid.toGo_maxChunk (hv : cfg.Valid) : cfg.toGo.params.maxChunk = cfg.maxChunk := by
  obtain ⟨h0, h1, h2⟩ := hv
  exact Go.orDefault_of_pos (Int.natCast_pos.2 (by omega)) _

/-- A hit of the port's first pass over the bytes `s`. -/
abbrev FirstHit (cfg : Config) (s : List UInt8) (p : Nat) : Prop :=
  Go.FirstHit cfg.gear cfg.toGo.params s p

/-- A hit of its second pass. -/
abbrev SecondHit (cfg : Config) (s : List UInt8) (p : Nat) : Prop :=
  Go.SecondHit cfg.gear cfg.toGo.params s p

/-- How many of the bytes `s` from the offset `o` on the port has in its window. -/
abbrev windowLen (cfg : Config) (o : Nat) (s : List UInt8) : Nat :=
  (Go.window cfg.toGo.params o s).length

/-- Where the stream's search stops on the bytes `s`: at the end of what does not exceed
`min_chunk`, and otherwise at the first hit of its restarted fingerprints, or its ceiling. -/
def StreamStopsAt (cfg : Config) (s : List UInt8) (n : Nat) : Prop :=
  (s.length ≤ cfg.minChunk ∧ n = s.length) ∨
    (cfg.minChunk < s.length ∧
      First (Restarted cfg s) cfg.minChunk (min s.length cfg.maxChunk) n)

/-- Where the port's search stops: at the end of one of its passes over the window. -/
abbrev PortStopsAt (cfg : Config) (o : Nat) (s : List UInt8) (n : Nat) : Prop :=
  TwoPass (FirstHit cfg s) (SecondHit cfg s) cfg.avgChunk cfg.maxChunk (windowLen cfg o s) n

/-- The port does not end a chunk where the stream does, after `n` of the bytes `s` from the offset
`o` on. -/
inductive Differ (cfg : Config) (o : Nat) (s : List UInt8) (n : Nat) : Prop
  /-- The window of the port ends within the chunk. -/
  | window : windowLen cfg o s < n → Differ cfg o s n
  /-- With the bytes before the minimum in its fingerprint, the port hits at the minimum or within
  31 bytes of it, where the stream does not. -/
  | early (p : Nat) : p < n → p < cfg.minChunk + 32 → p < cfg.avgChunk → FirstHit cfg s p →
      Differ cfg o s n
  /-- It misses the stream's hit there, and goes on to the end of a short window, -/
  | late : n < cfg.minChunk + 32 → ¬ FirstHit cfg s n → n < windowLen cfg o s →
      windowLen cfg o s < cfg.avgChunk → Differ cfg o s n
  /-- or to another hit. -/
  | later (p : Nat) : n < cfg.minChunk + 32 → ¬ FirstHit cfg s n → n < p →
      p ≤ windowLen cfg o s → p < cfg.avgChunk → FirstHit cfg s p → Differ cfg o s n
  /-- The second pass, from the first byte on, hits within the chunk, -/
  | again (p : Nat) : cfg.avgChunk ≤ windowLen cfg o s →
      (n < cfg.avgChunk → ¬ FirstHit cfg s n) → 0 < p → p < n → SecondHit cfg s p →
      Differ cfg o s n
  /-- or not at its end, short of the maximum and of the end of the window. -/
  | past : cfg.avgChunk ≤ windowLen cfg o s → (n < cfg.avgChunk → ¬ FirstHit cfg s n) →
      n < windowLen cfg o s → n < cfg.maxChunk → ¬ SecondHit cfg s n → Differ cfg o s n

/-- The cut of the stream is where its search stops. -/
theorem streamStopsAt_cutAt (hv : cfg.Valid) (s : List UInt8) :
    StreamStopsAt cfg s (cutAt cfg s).1 := by
  rcases Nat.lt_or_ge cfg.minChunk s.length with h | h
  · exact .inr ⟨h, cutAt_first hv h⟩
  · obtain ⟨h0, h1, h2⟩ := hv
    refine .inl ⟨h, ?_⟩
    rw [cutAt, phase1, if_neg (by omega), phase2, if_neg (by omega)]
    exact Nat.min_eq_left (by omega)

namespace StreamStopsAt

theorem le_maxChunk (hv : cfg.Valid) (h : StreamStopsAt cfg s n) : n ≤ cfg.maxChunk := by
  obtain ⟨-, hlt, hle⟩ := hv
  rcases h with ⟨hshort, rfl⟩ | ⟨-, h⟩
  · omega
  · exact h.le.trans (Nat.min_le_right _ _)

theorem pos_of_lt (h : StreamStopsAt cfg s n) (hlt : cfg.minChunk < s.length) : 0 < n := by
  rcases h with ⟨hshort, -⟩ | ⟨-, h⟩
  · omega
  · exact (Nat.zero_le _).trans_lt h.gt

/-- The stream has no hit within its chunk. -/
theorem not_restarted (h : StreamStopsAt cfg s n) (hp : cfg.minChunk < p) (hlt : p < n) :
    ¬ Restarted cfg s p := by
  rcases h with ⟨hshort, rfl⟩ | ⟨-, h⟩
  · omega
  · exact h.before p hp hlt

/-- A chunk that ends before the average and before the input does, ends at a hit. -/
theorem restarted (hv : cfg.Valid) (h : StreamStopsAt cfg s n) (hlt : n < s.length)
    (havg : n < cfg.avgChunk) : Restarted cfg s n := by
  obtain ⟨-, -, hle⟩ := hv
  rcases h with ⟨-, rfl⟩ | ⟨-, h⟩
  · exact absurd hlt (lt_irrefl _)
  · exact h.hit (by omega)

/-- The stream gets beyond the first size it tests only with a mask, as everything hits a mask of
zero. -/
theorem maskS_ne (hv : cfg.Valid) (h : StreamStopsAt cfg s n) (hlt : cfg.minChunk + 1 < n) :
    cfg.maskS ≠ 0 := by
  intro hzero
  refine h.not_restarted (Nat.lt_succ_self _) hlt ?_
  rw [Restarted, if_pos (Nat.succ_le_of_lt hv.2.1), Hits, hzero, UInt32.and_zero]

end StreamStopsAt

/-- **Away from the minimum** the first pass of the port and the stream hit alike: a byte leaves the
fingerprint after 32 more. -/
theorem firstHit_iff_restarted (hv : cfg.Valid) (hmask : cfg.maskS ≠ 0)
    (hmin : cfg.minChunk + 32 ≤ p) (havg : p < cfg.avgChunk) (hp : p ≤ s.length) :
    FirstHit cfg s p ↔ Restarted cfg s p := by
  have hkept : cfg.toGo.params.maskS = cfg.maskS := if_neg hmask
  rw [FirstHit, Go.FirstHit, hv.toGo_minChunk, hkept, Restarted, if_pos havg.le,
    hits_drop_zero hmin hp]
  exact and_iff_right (by omega)

/-- A hit of the first pass that the stream does not have is close to the minimum. -/
theorem StreamStopsAt.near_of_firstHit (hv : cfg.Valid) (hn : StreamStopsAt cfg s n) (hlt : p < n)
    (havg : p < cfg.avgChunk) (hp : p ≤ s.length)
    (hhit : FirstHit cfg s p) : p < cfg.minChunk + 32 := by
  by_contra hfar
  have hmask := hn.maskS_ne hv (by omega)
  rw [firstHit_iff_restarted hv hmask (by omega) havg hp] at hhit
  exact hn.not_restarted (by omega) hlt hhit

/-- A hit of the stream that the first pass misses is close to the minimum. -/
theorem StreamStopsAt.near_of_missed (hv : cfg.Valid) (hn : StreamStopsAt cfg s n)
    (hlt : n < s.length) (havg : n < cfg.avgChunk) (hmiss : ¬ FirstHit cfg s n) :
    n < cfg.minChunk + 32 := by
  by_contra hfar
  have hmask := hn.maskS_ne hv (by omega)
  rw [firstHit_iff_restarted hv hmask (by omega) havg hlt.le] at hmiss
  exact hmiss (hn.restarted hv hlt havg)

theorem firstHit_pos (h : FirstHit cfg s p) : 0 < p :=
  cfg.toGo.params.min_pos.trans_le h.1

/-- Where they differ, the port does not stop. -/
theorem Differ.not_portStopsAt (hdiffer : Differ cfg o s n) : ¬ PortStopsAt cfg o s n := by
  intro h
  cases hdiffer with
  | window hlt => exact absurd h.le (by omega)
  | early p hlt _ havg hhit => exact h.not_first (firstHit_pos hhit) hlt havg hhit
  | late _ hnot hlt havg =>
    rcases (h.second fun _ => hnot).2 with ⟨-, heq⟩ | ⟨hge, -⟩
    · omega
    · omega
  | later p _ hnot _ hle havg hhit =>
    exact (h.second fun _ => hnot).1 p (firstHit_pos hhit) hle havg hhit
  | again p havg hnot hp hlt hhit =>
    rcases (h.second hnot).2 with ⟨hshort, -⟩ | ⟨-, h⟩
    · omega
    · exact h.before p hp hlt hhit
  | past havg hnot hlt hmax hmiss =>
    rcases (h.second hnot).2 with ⟨hshort, -⟩ | ⟨-, h⟩
    · omega
    · exact hmiss (h.hit (by omega))

/-- If nothing makes them differ, the port stops where the stream does. -/
theorem portStopsAt_of_not_differ (hv : cfg.Valid) (hn : StreamStopsAt cfg s n)
    (h : ¬ Differ cfg o s n) : PortStopsAt cfg o s n := by
  have hwindow : windowLen cfg o s ≤ s.length := by
    rw [windowLen, Go.window, List.length_take]
    exact Nat.min_le_right _ _
  have hle : n ≤ windowLen cfg o s := Nat.not_lt.1 fun hlt => h (.window hlt)
  have hbefore : ∀ p, p < n → p < cfg.avgChunk → ¬ FirstHit cfg s p := fun p hlt havg hhit =>
    h (.early p hlt (hn.near_of_firstHit hv hlt havg (by omega) hhit) havg hhit)
  by_cases hfirst : n < cfg.avgChunk ∧ FirstHit cfg s n
  · exact .inl ⟨firstHit_pos hfirst.2, by omega, hfirst.2, fun p _ hlt => hbefore p hlt (by omega)⟩
  have hmiss : n < cfg.avgChunk → ¬ FirstHit cfg s n := fun havg hhit => hfirst ⟨havg, hhit⟩
  -- the first pass ends without a hit
  have hnone : ∀ p, p ≤ windowLen cfg o s → p < cfg.avgChunk → ¬ FirstHit cfg s p := by
    intro p hp havg hhit
    rcases Nat.lt_trichotomy p n with hlt | rfl | hgt
    · exact hbefore p hlt havg hhit
    · exact hmiss havg hhit
    · have hmiss := hmiss (hgt.trans havg)
      have hnear := hn.near_of_missed hv (by omega) (hgt.trans havg) hmiss
      exact h (.later p hnear hmiss hgt hp havg hhit)
  have hpos := hv.1.trans hv.2.1
  refine .inr ⟨fun p _ hp => hnone p (by omega) (by omega), ?_⟩
  rcases Nat.lt_or_ge (windowLen cfg o s) cfg.avgChunk with hshort | hlong
  · refine .inl ⟨hshort, hle.antisymm (Nat.not_lt.1 fun hlt => ?_)⟩
    have hmiss := hmiss (hlt.trans hshort)
    have hnear := hn.near_of_missed hv (by omega) (hlt.trans hshort) hmiss
    exact h (.late hnear hmiss hlt hshort)
  · refine .inr ⟨hlong, ?_, le_min hle (hn.le_maxChunk hv), fun p hp hlt hhit => ?_, fun hlt => ?_⟩
    · exact hn.pos_of_lt (hv.2.1.trans_le (hlong.trans hwindow))
    · exact h (.again p hlong hmiss hp hlt hhit)
    · by_contra hnot
      exact h (.past hlong hmiss (by omega) (by omega) hnot)

/-- A chunk is cut alike exactly when nothing makes the searches differ. -/
theorem cutFrom_eq_cutAt_iff (hv : cfg.Valid) (o : Nat) (s : List UInt8) :
    Go.cutFrom cfg.gear cfg.toGo.params o s = (cutAt cfg s).1 ↔
      ¬ Differ cfg o s (cutAt cfg s).1 := by
  have hgo := Go.twoPass_cutFrom cfg.gear cfg.toGo.params o s
  rw [hv.toGo_avgChunk, hv.toGo_maxChunk] at hgo
  constructor
  · intro heq hdiffer
    exact hdiffer.not_portStopsAt (heq ▸ hgo)
  · intro h
    exact hgo.unique (portStopsAt_of_not_differ hv (streamStopsAt_cutAt hv s) h)

end

/-- The cut rule of the port. -/
abbrev portRule (cfg : Config) : CutRule (UInt8 × Nat) := Go.rule cfg.gear cfg.toGo.params

/-- The rules of the port and of the stream tile alike exactly when they cut every chunk of the
stream alike. -/
theorem tile_port_eq_iff (hv : cfg.Valid) (x : List UInt8) :
    (portRule cfg).tile (fun o l => (o, (portRule cfg).cut l)) 0 x.zipIdx =
        (cutRule cfg hv).tile (fun o r => (o, (cutRule cfg hv).cut r)) 0 x ↔
      ∀ n ∈ (cutRule cfg hv).starts x, ¬ Differ cfg n (x.drop n) (cutAt cfg (x.drop n)).1 := by
  -- the stream's rule is read on the same positioned bytes
  have hmap := (cutRule cfg hv).tile_comap Prod.fst
    (fun o r => (o, (cutRule cfg hv).cut r)) 0 x.zipIdx
  have hstarts : ((cutRule cfg hv).comap Prod.fst).starts x.zipIdx = (cutRule cfg hv).starts x := by
    have h := (cutRule cfg hv).tile_comap Prod.fst (fun o _ => o) 0 x.zipIdx
    rwa [List.zipIdx_map_fst] at h
  rw [List.zipIdx_map_fst] at hmap
  refine (Eq.congr_right hmap.symm).trans ?_
  refine (((cutRule cfg hv).comap Prod.fst).tile_eq_tile_iff _ 0 x.zipIdx).trans ?_
  rw [CutRule.rests, CutRule.tile_eq_map_starts, List.forall_mem_map, hstarts]
  refine forall₂_congr fun n _ => ?_
  rw [CutRule.drop_zipIdx, Nat.zero_add, Go.rule_cut, CutRule.comap_cut, List.zipIdx_map_fst,
    cutRule_cut, cutFrom_eq_cutAt_iff hv]

/-- **The port against the stream**: with the same Gear table, sizes and masks they give the same
offsets and sizes exactly for the inputs on which nothing makes their searches differ at a chunk of
the stream. -/
theorem goChunkAll_eq_chunkAll_iff {Digest : Type} (host : Host Digest)
    (sha256 : List UInt8 → List UInt8) (cfg : Config) (x : List UInt8) (pieces : List Delivery)
    (reader : Go.Reader) (fuel : Nat) (ds : List (ChunkDescriptor Digest))
    (hcfg : cfg.validate = .ok ()) (hx : Delivers pieces x) (hgo : Go.Feeds reader x)
    (hfuel : x.length < fuel) (hds : chunkAll host fuel (readerOf pieces) cfg = some (.ok ds)) :
    (∃ chunks,
        Go.chunkAll cfg.gear sha256 fuel (Go.newWithConfig reader cfg.toGo) = .ok (chunks, none) ∧
        chunks.map (fun d => (d.offset, d.size)) = ds.map fun d => (d.offset, d.length)) ↔
      ∀ d ∈ ds, ¬ Differ cfg d.offset (x.drop d.offset) d.length := by
  have hv := Config.validate_eq_ok_iff.1 hcfg
  obtain ⟨-, rfl⟩ := (chunkAll_eq_ok_iff host hv hx hfuel).1 hds
  have hlim : cfg.toGo.params.minChunk ≤ cfg.toGo.params.maxChunk := by
    rw [hv.toGo_minChunk, hv.toGo_maxChunk]
    exact hv.2.1.le.trans hv.2.2
  have hplaces : (Go.chunksFrom cfg.gear cfg.toGo.params sha256 0 x).map
      (fun d => (d.offset, d.size)) =
        (portRule cfg).tile (fun o l => (o, (portRule cfg).cut l)) 0 x.zipIdx :=
    (portRule cfg).map_tile _ 0 x.zipIdx
  have hstops : (∀ d ∈ (cutRule cfg hv).tile (descriptor host cfg) 0 x,
      ¬ Differ cfg d.offset (x.drop d.offset) d.length) ↔
        ∀ n ∈ (cutRule cfg hv).starts x,
          ¬ Differ cfg n (x.drop n) (cutAt cfg (x.drop n)).1 := by
    simp only [(cutRule cfg hv).tile_eq_map_starts, List.forall_mem_map, descriptor, Nat.zero_add]
    refine forall₂_congr fun n _ => ?_
    rw [← cutRule_cut hv, (cutRule cfg hv).length_take_cut]
  rw [hstops, ← tile_port_eq_iff hv, ← hplaces, map_tile_descriptor host hv Prod.mk,
    Go.chunkAll_eq cfg.gear sha256 hgo (.inl hlim) hfuel]
  simp only [Except.ok.injEq, Prod.mk.injEq, and_true, exists_eq_left']

/-- Four bytes on which the two agree. -/
theorem goChunkAll_eq_chunkAll_iff_tinyConfig :
    ∃ ds, chunkAll identityHost 5 (readerOf tinyPieces) tinyConfig = some (.ok ds) ∧
      (∃ chunks, Go.chunkAll tinyConfig.gear (fun bytes => bytes) 5
          (Go.newWithConfig [⟨[7, 7, 7, 7], none⟩] tinyConfig.toGo) = .ok (chunks, none) ∧
        chunks.map (fun d => (d.offset, d.size)) = ds.map fun d => (d.offset, d.length)) ∧
      ∀ d ∈ ds, ¬ Differ tinyConfig d.offset ([7, 7, 7, 7].drop d.offset) d.length := by
  let ds : List (ChunkDescriptor (List UInt8)) :=
    [⟨[7, 7, 7], 0, 3, CutPhase.hardMax.featureBit⟩, ⟨[7], 3, 1, CutPhase.eofTail.featureBit⟩]
  let chunks : List Go.Chunk :=
    [⟨['0', '7', '0', '7', '0', '7'], 0, 3⟩, ⟨['0', '7'], 3, 1⟩]
  have hds : chunkAll identityHost 5 (readerOf tinyPieces) tinyConfig = some (.ok ds) := by
    decide +kernel
  have hagree : ∃ chunks, Go.chunkAll tinyConfig.gear (fun bytes => bytes) 5
      (Go.newWithConfig [⟨[7, 7, 7, 7], none⟩] tinyConfig.toGo) = .ok (chunks, none) ∧
        chunks.map (fun d => (d.offset, d.size)) = ds.map fun d => (d.offset, d.length) :=
    ⟨chunks, by decide +kernel, rfl⟩
  exact ⟨ds, hds, hagree, (goChunkAll_eq_chunkAll_iff identityHost (fun bytes => bytes) tinyConfig
    [7, 7, 7, 7] tinyPieces [⟨[7, 7, 7, 7], none⟩] 5 ds rfl delivers_tinyPieces
    ⟨.inl ⟨rfl, trivial⟩, rfl⟩ (by decide) hds).1 hagree⟩

/-- The first byte alone hits: the port cuts after it, at `MinChunk`, and the stream does not look
before `min_chunk + 1`. -/
theorem goChunkAll_ne_chunkAll_tinyConfig :
    ∃ ds chunks,
      chunkAll identityHost 4 (readerOf [⟨[2, 1, 1], by decide⟩]) tinyConfig = some (.ok ds) ∧
      ds.map (fun d => (d.offset, d.length)) = [(0, 3)] ∧
      Go.chunkAll tinyConfig.gear (fun bytes => bytes) 4
        (Go.newWithConfig [⟨[2, 1, 1], none⟩] tinyConfig.toGo) = .ok (chunks, none) ∧
      chunks.map (fun d => (d.offset, d.size)) = [(0, 1), (1, 2)] := by
  let ds : List (ChunkDescriptor (List UInt8)) := [⟨[2, 1, 1], 0, 3, CutPhase.hardMax.featureBit⟩]
  let chunks : List Go.Chunk := [⟨['0', '2'], 0, 1⟩, ⟨['0', '1', '0', '1'], 1, 2⟩]
  exact ⟨ds, chunks, by decide +kernel, rfl, by decide +kernel, rfl⟩

end Aegis.FastCdc
