import Aegis.FastCdc.GoChunking

/-!
# What the windows of the Go chunker do to its chunks

Two things a reader expects of the chunks do not follow from how `findCut` goes over a window.

Its second pass begins at the first byte of the window and has no minimum, so a chunk can be shorter
than `MinChunk` (`EarlyHit`); that is the only way a chunk other than the last is too short
(`minChunk_le_cutFrom_iff`).

And where a window ends depends on where the reads fell, so the same bytes at another offset can be
cut elsewhere. A search comes to the same end in the windows at two offsets exactly when it is
settled in the shorter (`SettledAt`); chunking an input again from one of its boundaries gives the
same chunks exactly when every search from there on is settled.
-/

namespace Aegis.FastCdc.Go

section
variable (gear : GearTable) (cfg : Params) (data : List UInt8)

/-- The first pass hits after `p` bytes. -/
def FirstHit (p : Nat) : Prop := cfg.minChunk ≤ p ∧ Hits gear cfg.maskS 0 data p

/-- The second pass hits after `p` bytes. -/
def SecondHit (p : Nat) : Prop :=
  Hits gear cfg.maskL (gearFold gear 0 (data.take cfg.avgChunk)) data p

end

/-! ## The minimum -/

/-- The first pass over a window ends without a hit, and the second one hits below `MinChunk`. -/
structure EarlyHit (gear : GearTable) (cfg : Params) (data : List UInt8) : Prop where
  long : cfg.avgChunk ≤ data.length
  first : ∀ p < cfg.avgChunk, ¬ FirstHit gear cfg data p
  second : ∃ p, 0 < p ∧ p < cfg.minChunk ∧ SecondHit gear cfg data p

section
variable {gear : GearTable} {cfg : Params}

/-- **A cut that leaves something is at `MinChunk` or above, save after an early hit.** -/
theorem minChunk_le_cutFrom_iff (hma : cfg.minChunk ≤ cfg.avgChunk)
    (ham : cfg.avgChunk ≤ cfg.maxChunk) (o : Nat) (s : List UInt8) :
    (cutFrom gear cfg o s < s.length → cfg.minChunk ≤ cutFrom gear cfg o s) ↔
      ¬ EarlyHit gear cfg (window cfg o s) := by
  have hlen : (window cfg o s).length = min (reach cfg o - o) s.length := List.length_take
  have hstops : StopsAt gear cfg (window cfg o s) (cutFrom gear cfg o s) :=
    stopsAt_windowCut gear cfg (window cfg o s)
  generalize cutFrom gear cfg o s = n at hstops ⊢
  rcases hstops with ⟨hpos, hle, hhit, -⟩ | ⟨hnone, ⟨hshort, hn⟩ | ⟨hlong, hfirst⟩⟩
  · -- the first pass hit
    refine ⟨fun _ h => h.first n (by omega) hhit, fun _ _ => hhit.1⟩
  · -- the window is short: it is all that is left, or it has `MinChunk` bytes
    have hreach := add_minChunk_le_reach cfg o
    refine ⟨fun _ h => absurd h.long (by omega), fun _ hlt => by omega⟩
  · have hfirst' : ∀ p < cfg.avgChunk, ¬ FirstHit gear cfg (window cfg o s) p := by
      intro p hp hhit
      have := hhit.1
      have := cfg.min_pos
      exact hnone p (by omega) (by omega) hhit
    constructor
    · rintro hmin ⟨-, -, p, hp, hlt, hhit⟩
      -- the search has stopped at the early hit or before
      have hnp : ¬ p < n := fun hpn => hfirst.before p hp hpn hhit
      have := hmin (by omega)
      omega
    · intro hearly _
      by_contra hlt
      exact hearly ⟨hlong, hfirst', n, hfirst.gt, by omega, hfirst.hit (by omega)⟩

end

/-- **The minimum of the Go chunker.** Every chunk but the last has `MinChunk` bytes exactly if no
search at the start of a chunk hits early. -/
theorem minChunk_le_size_iff (gear : GearTable) (sha256 : List UInt8 → List UInt8) (cfg : Config)
    (x : List UInt8) (reader : Reader) (hmin : 0 < cfg.minChunk)
    (havg : cfg.minChunk ≤ cfg.avgChunk) (hmax : cfg.avgChunk ≤ cfg.maxChunk)
    (hx : Feeds reader x) :
    ∃ chunks, (∀ fuel, x.length < fuel →
        chunkAll gear sha256 fuel (newWithConfig reader cfg) = .ok (chunks, none)) ∧
      ((∀ d ∈ chunks.dropLast, cfg.minChunk ≤ d.size) ↔
        ∀ d ∈ chunks,
          ¬ EarlyHit gear cfg.params (window cfg.params d.offset (x.drop d.offset))) := by
  obtain ⟨hmin', havg', hmax'⟩ := cfg.params_sizes hmin havg hmax
  have hsize (n : Nat) : cfg.minChunk ≤ n ↔ cfg.params.minChunk ≤ n := by omega
  refine ⟨_, fun fuel hfuel => chunkAll_eq gear sha256 hx (.inl (by omega)) hfuel, ?_⟩
  rw [chunksFrom, CutRule.forall_mem_dropLast_tile, CutRule.tile_eq_map_starts,
    List.forall_mem_map]
  refine forall₂_congr fun n _ => ?_
  rw [← minChunk_le_cutFrom_iff (by omega) (by omega), chunkOf, CutRule.drop_zipIdx, rule_cut,
    hsize, List.length_zipIdx]
  simp only [Nat.zero_add]

/-- Sizes of two to four bytes. -/
def narrowConfig : Config :=
  { minChunk := 2, avgChunk := 3, maxChunk := 4, maskS := 1, maskL := 1 }

/-- Five bytes in chunks of two, two and one. -/
theorem minChunk_le_size_iff_narrowConfig :
    ∃ chunks, chunkAll gearTable (fun bytes => bytes) 6 (newWithConfig smallReader narrowConfig) =
        .ok (chunks, none) ∧
      chunks.map Chunk.size = [2, 2, 1] ∧
      ∀ d ∈ chunks, ¬ EarlyHit gearTable narrowConfig.params
        (window narrowConfig.params d.offset ([7, 7, 7, 8, 9].drop d.offset)) := by
  obtain ⟨chunks, hrun, hiff⟩ := minChunk_le_size_iff gearTable (fun bytes => bytes) narrowConfig
    [7, 7, 7, 8, 9] smallReader (by decide) (by decide) (by decide) feeds_smallReader
  have hsizes : chunkAll gearTable (fun bytes => bytes) 6 (newWithConfig smallReader narrowConfig) =
      .ok ([⟨['0', '7', '0', '7'], 0, 2⟩, ⟨['0', '7', '0', '8'], 2, 2⟩, ⟨['0', '9'], 4, 1⟩],
        none) := by
    decide +kernel
  have hchunks := (hrun 6 (by decide)).symm.trans hsizes
  rw [Except.ok.injEq, Prod.mk.injEq] at hchunks
  obtain ⟨rfl, -⟩ := hchunks
  exact ⟨_, hsizes, rfl, hiff.1 (by decide)⟩

/-- The second pass hits at the first byte: a chunk of one byte, where two are the minimum. -/
theorem size_lt_minChunk :
    ∃ chunks, chunkAll gearTable (fun bytes => bytes) 4
        (newWithConfig [⟨[2, 0, 0], none⟩] narrowConfig) = .ok (chunks, none) ∧
      ∃ d ∈ chunks.dropLast, d.size < narrowConfig.minChunk :=
  ⟨[⟨['0', '2'], 0, 1⟩, ⟨['0', '0', '0', '0'], 1, 2⟩], by decide +kernel,
    ⟨['0', '2'], 0, 1⟩, by decide, by decide⟩

/-! ## Starting elsewhere -/

/-- The chunks from the stream offset `o` on. -/
def fromOffset (o : Nat) (chunks : List Chunk) : List Chunk :=
  chunks.filter fun d => o ≤ d.offset

/-- The same chunk in a stream that begins `o` bytes later. -/
def Chunk.relativeTo (o : Nat) (d : Chunk) : Chunk := { d with offset := d.offset - o }

/-- The search of the bytes `s` is settled in the shorter of the windows at the offsets `o` and
`o'`. -/
def SettledAt (gear : GearTable) (cfg : Params) (s : List UInt8) (o o' : Nat) : Prop :=
  Settled (FirstHit gear cfg s) (SecondHit gear cfg s) cfg.avgChunk cfg.maxChunk
    (min (window cfg o s).length (window cfg o' s).length)
    (max (window cfg o s).length (window cfg o' s).length)

section
variable {gear : GearTable} {cfg : Params} {s : List UInt8}

/-- A test in a window is one of the bytes ahead. -/
theorem hits_take (hp : p ≤ k) : Hits gear mask fp (s.take k) p ↔ Hits gear mask fp s p := by
  rw [Hits, Hits, List.take_take, Nat.min_eq_left hp]

/-- The cut at `o` is a search of the bytes ahead, as far as the window goes. -/
theorem twoPass_cutFrom (gear : GearTable) (cfg : Params) (o : Nat) (s : List UInt8) :
    TwoPass (FirstHit gear cfg s) (SecondHit gear cfg s) cfg.avgChunk cfg.maxChunk
      (window cfg o s).length (cutFrom gear cfg o s) := by
  have hstops : TwoPass (FirstHit gear cfg (window cfg o s)) (SecondHit gear cfg (window cfg o s))
      cfg.avgChunk cfg.maxChunk (window cfg o s).length (cutFrom gear cfg o s) :=
    stopsAt_windowCut gear cfg (window cfg o s)
  have hlen : (window cfg o s).length = min (reach cfg o - o) s.length := List.length_take
  refine hstops.congr (fun p hp => ?_) fun havg p hp => ?_
  · exact and_congr_right fun _ => hits_take (by omega)
  · rw [SecondHit, SecondHit, window, List.take_take, Nat.min_eq_left (by omega)]
    exact hits_take (by omega)

/-- **The same bytes are cut alike at two offsets** exactly when their search is settled. -/
theorem cutFrom_eq_iff (ham : cfg.avgChunk ≤ cfg.maxChunk) (s : List UInt8) (o o' : Nat) :
    cutFrom gear cfg o s = cutFrom gear cfg o' s ↔ SettledAt gear cfg s o o' := by
  rcases eq_or_ne s [] with rfl | hs
  · have hnil : window cfg o [] = window cfg o' [] := by rw [window, window, List.take_nil,
      List.take_nil]
    refine iff_of_true (congrArg (windowCut gear cfg) hnil) (.same ?_)
    rw [hnil, min_self, max_self]
  have h := twoPass_cutFrom gear cfg o s
  have h' := twoPass_cutFrom gear cfg o' s
  have hpos : 0 < (window cfg o s).length := List.length_pos_iff.2 (window_ne_nil hs)
  have hpos' : 0 < (window cfg o' s).length := List.length_pos_iff.2 (window_ne_nil hs)
  unfold SettledAt
  rcases Nat.le_total (window cfg o s).length (window cfg o' s).length with hle | hle
  · rw [Nat.min_eq_left hle, Nat.max_eq_right hle]
    exact ⟨fun heq => settled_of_eq h (heq ▸ h') hle ham, fun hset => hset.eq h h' hpos hle ham⟩
  · rw [Nat.min_eq_right hle, Nat.max_eq_left hle]
    exact ⟨fun heq => settled_of_eq h' (heq ▸ h) hle ham,
      fun hset => (hset.eq h' h hpos' hle ham).symm⟩

/-- The chunks from `o` on, counted from there, as a tiling of the bytes counted from there. -/
theorem map_relativeTo_chunksFrom (sha256 : List UInt8 → List UInt8) (o : Nat) (s : List UInt8) :
    (chunksFrom gear cfg sha256 o s).map (Chunk.relativeTo o) =
      ((rule gear cfg).comap (Prod.map id (· + o))).tile
        (fun p l => chunkOf gear cfg sha256 p (l.map (Prod.map id (· + o)))) 0 s.zipIdx := by
  have hoffset : ∀ p l, (chunkOf gear cfg sha256 (p + o) l).relativeTo o =
      chunkOf gear cfg sha256 p l := fun p l => by simp [Chunk.relativeTo, chunkOf]
  rw [(rule gear cfg).tile_comap, List.map_snd_add_zipIdx_eq_zipIdx, Nat.add_zero, chunksFrom,
    (rule gear cfg).map_tile, ← Nat.zero_add o, (rule gear cfg).tile_add]
  simp only [Nat.zero_add, hoffset]

/-- The bytes from `o` on are chunked alike from there and on their own exactly when every search is
settled. -/
theorem chunksFrom_zero_eq_iff (ham : cfg.avgChunk ≤ cfg.maxChunk)
    (sha256 : List UInt8 → List UInt8) (o : Nat) (s : List UInt8) :
    chunksFrom gear cfg sha256 0 s = (chunksFrom gear cfg sha256 o s).map (Chunk.relativeTo o) ↔
      ∀ d ∈ chunksFrom gear cfg sha256 o s,
        SettledAt gear cfg (s.drop (d.offset - o)) (d.offset - o) d.offset := by
  -- both are tilings of the bytes counted from `o`
  have hreports : ∀ p l, chunkOf gear cfg sha256 p l =
      chunkOf gear cfg sha256 p (l.map (Prod.map id (· + o))) ↔
        (rule gear cfg).cut l = ((rule gear cfg).comap (Prod.map id (· + o))).cut l := by
    intro p l
    have hbytes : (l.map (Prod.map id (· + o))).map Prod.fst = l.map Prod.fst := by
      rw [List.map_map]
      rfl
    rw [chunkOf, chunkOf, CutRule.comap_cut, hbytes, Chunk.mk.injEq]
    exact ⟨fun h => h.2.2, fun h => ⟨by rw [h], rfl, h⟩⟩
  have hstarts : ((rule gear cfg).comap (Prod.map id (· + o))).starts s.zipIdx =
      (rule gear cfg).starts (s.zipIdx o) := by
    have h := (rule gear cfg).tile_comap (Prod.map id (· + o)) (fun p _ => p) 0 s.zipIdx
    rwa [List.map_snd_add_zipIdx_eq_zipIdx, Nat.add_zero] at h
  rw [map_relativeTo_chunksFrom]
  refine (CutRule.tile_eq_tile_iff_of _ _ hreports 0 s.zipIdx).trans ?_
  rw [CutRule.rests, CutRule.tile_eq_map_starts, List.forall_mem_map, hstarts, chunksFrom,
    CutRule.tile_eq_map_starts, List.forall_mem_map]
  refine forall₂_congr fun n _ => ?_
  rw [CutRule.comap_cut, CutRule.drop_zipIdx, Nat.zero_add, List.map_snd_add_zipIdx_eq_zipIdx,
    rule_cut, rule_cut, cutFrom_eq_iff ham]
  simp only [chunkOf, Nat.add_sub_cancel_left]

end

/-- **Chunking again from a boundary.** The chunks of the input from the offset of one of its chunks
are those of the input from there on, with offsets counted from there, exactly if the search at the
start of each of them is settled. -/
theorem chunkAll_restart_iff (gear : GearTable) (sha256 : List UInt8 → List UInt8) (cfg : Config)
    (x : List UInt8) (reader : Reader) (hmin : 0 < cfg.minChunk)
    (havg : cfg.minChunk ≤ cfg.avgChunk) (hmax : cfg.avgChunk ≤ cfg.maxChunk)
    (hx : Feeds reader x) :
    ∃ chunks, (∀ fuel, x.length < fuel →
        chunkAll gear sha256 fuel (newWithConfig reader cfg) = .ok (chunks, none)) ∧
      ∀ d₀ ∈ chunks, ∀ reader' fuel', Feeds reader' (x.drop d₀.offset) →
        (x.drop d₀.offset).length < fuel' →
        (chunkAll gear sha256 fuel' (newWithConfig reader' cfg) =
            .ok ((fromOffset d₀.offset chunks).map (Chunk.relativeTo d₀.offset), none) ↔
          ∀ d ∈ fromOffset d₀.offset chunks,
            SettledAt gear cfg.params (x.drop d.offset) (d.offset - d₀.offset) d.offset) := by
  obtain ⟨hmin', havg', hmax'⟩ := cfg.params_sizes hmin havg hmax
  refine ⟨_, fun fuel hfuel => chunkAll_eq gear sha256 hx (.inl (by omega)) hfuel, ?_⟩
  intro d₀ hd₀ reader' fuel' hx' hfuel'
  have hstart : d₀.offset ∈ (rule gear cfg.params).starts x.zipIdx :=
    (rule gear cfg.params).place_mem_starts (fun _ _ => rfl) hd₀
  have hfrom : fromOffset d₀.offset (chunksFrom gear cfg.params sha256 0 x) =
      chunksFrom gear cfg.params sha256 d₀.offset (x.drop d₀.offset) := by
    refine ((rule gear cfg.params).filter_tile (fun _ _ => rfl) hstart).trans ?_
    rw [CutRule.drop_zipIdx, Nat.zero_add]
    rfl
  have hdrop : ∀ d ∈ chunksFrom gear cfg.params sha256 d₀.offset (x.drop d₀.offset),
      (x.drop d₀.offset).drop (d.offset - d₀.offset) = x.drop d.offset := by
    intro d hd
    have hle : d₀.offset ≤ d.offset := by
      rw [← hfrom] at hd
      exact of_decide_eq_true (List.mem_filter.1 hd).2
    rw [List.drop_drop, Nat.add_sub_cancel' hle]
  rw [chunkAll_eq gear sha256 hx' (.inl (by omega)) hfuel', hfrom, Except.ok.injEq, Prod.mk.injEq,
    and_iff_left rfl, chunksFrom_zero_eq_iff (by omega)]
  exact forall₂_congr fun d hd => by rw [hdrop d hd]

/-- Five bytes, and the two from the offset `3` on. -/
theorem chunkAll_restart_iff_smallConfig :
    ∃ chunks, chunkAll gearTable (fun bytes => bytes) 6 (newWithConfig smallReader smallConfig) =
        .ok (chunks, none) ∧
      chunks.map Chunk.offset = [0, 1, 2, 3] ∧
      chunkAll gearTable (fun bytes => bytes) 3 (newWithConfig [⟨[8, 9], none⟩] smallConfig) =
        .ok ((fromOffset 3 chunks).map (Chunk.relativeTo 3), none) ∧
      ∀ d ∈ fromOffset 3 chunks,
        SettledAt gearTable smallConfig.params ([7, 7, 7, 8, 9].drop d.offset) (d.offset - 3)
          d.offset := by
  obtain ⟨chunks, hrun, hiff⟩ := chunkAll_restart_iff gearTable (fun bytes => bytes) smallConfig
    [7, 7, 7, 8, 9] smallReader (by decide) (by decide) (by decide) feeds_smallReader
  have hall : chunkAll gearTable (fun bytes => bytes) 6 (newWithConfig smallReader smallConfig) =
      .ok ([⟨['0', '7'], 0, 1⟩, ⟨['0', '7'], 1, 1⟩, ⟨['0', '7'], 2, 1⟩,
        ⟨['0', '8', '0', '9'], 3, 2⟩], none) := by
    decide +kernel
  have hrest : chunkAll gearTable (fun bytes => bytes) 3
      (newWithConfig [⟨[8, 9], none⟩] smallConfig) =
        .ok ([⟨['0', '8', '0', '9'], 0, 2⟩], none) := by
    decide +kernel
  have hchunks := (hrun 6 (by decide)).symm.trans hall
  rw [Except.ok.injEq, Prod.mk.injEq] at hchunks
  obtain ⟨rfl, -⟩ := hchunks
  exact ⟨_, hall, rfl, hrest, (hiff ⟨['0', '8', '0', '9'], 3, 2⟩ (by decide) [⟨[8, 9], none⟩] 3
    ⟨.inl ⟨rfl, trivial⟩, rfl⟩ (by decide)).1 hrest⟩

/-- The window at the offset `2` ends after a byte, the one at `0` does not. -/
theorem chunkAll_restart_ne :
    ∃ chunks, chunkAll gearTable (fun bytes => bytes) 5
        (newWithConfig [⟨[0, 2, 0, 0], none⟩] smallConfig) = .ok (chunks, none) ∧
      chunks.map (fun d => (d.offset, d.size)) = [(0, 2), (2, 1), (3, 1)] ∧
      ∃ rest, chunkAll gearTable (fun bytes => bytes) 3
          (newWithConfig [⟨[0, 2, 0, 0].drop 2, none⟩] smallConfig) = .ok (rest, none) ∧
        rest.map (fun d => (d.offset, d.size)) = [(0, 2)] ∧
        rest ≠ (fromOffset 2 chunks).map (Chunk.relativeTo 2) :=
  ⟨[⟨['0', '0', '0', '2'], 0, 2⟩, ⟨['0', '0'], 2, 1⟩, ⟨['0', '0'], 3, 1⟩], by decide +kernel, rfl,
    [⟨['0', '0', '0', '0'], 0, 2⟩], by decide +kernel, rfl, by decide⟩

end Aegis.FastCdc.Go
