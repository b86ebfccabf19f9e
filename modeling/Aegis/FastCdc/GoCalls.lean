import Aegis.FastCdc.GoErrors
import Aegis.FastCdc.GoWindows

/-!
# Calling `NextChunk`

What the calls of `NextChunk` answer, one after the other, for any number of calls. On an error-free
reader they answer the chunks of the tiling and then `io.EOF` for ever (`Stands.nextChunks`): how
the bytes were cut into reads does not show.

`NewWithConfig` does not order the three sizes it is given. The calls are safe for the sizes it is
meant for, and for others they may not be (`nextChunks_safe_iff`): with `MinChunk` above `MaxChunk`
a full read leaves too little to cut and the first call answers `io.EOF`, and with `AvgChunk` above
`MaxChunk` the first pass of a search, which does not know `MaxChunk`, can go beyond it.
-/

namespace Aegis.FastCdc.Go

section
variable (gear : GearTable) (sha256 : List UInt8 → List UInt8)

/-- The answers of `n` calls of `NextChunk`. -/
def nextChunks (fuel : Nat) : Nat → Chunker → Except Stop (List (Except Err Chunk))
  | 0, _ => .ok []
  | n + 1, c => do
    let (answer, c) ← nextChunk gear sha256 fuel c
    let answers ← nextChunks fuel n c
    pure (answer :: answers)

end

/-- The answers of `n` calls that return the chunks in turn and `io.EOF` from then on. -/
def answersOf (chunks : List Chunk) (n : Nat) : List (Except Err Chunk) :=
  (chunks.take n).map .ok ++ List.replicate (n - chunks.length) (.error .eof)

@[simp] theorem answersOf_zero (chunks : List Chunk) : answersOf chunks 0 = [] := by
  simp [answersOf]

@[simp] theorem answersOf_nil_succ (n : Nat) :
    answersOf [] (n + 1) = .error .eof :: answersOf [] n := by
  simp [answersOf, List.replicate_succ]

@[simp] theorem answersOf_cons_succ (d : Chunk) (chunks : List Chunk) (n : Nat) :
    answersOf (d :: chunks) (n + 1) = .ok d :: answersOf chunks n := by
  simp [answersOf]

section
variable {gear : GearTable} {sha256 : List UInt8 → List UInt8} {fuel n : Nat} {c c' : Chunker}

/-- The first call, and those that follow. -/
theorem nextChunks_succ (hnext : nextChunk gear sha256 fuel c = .ok (answer, c'))
    (hrest : nextChunks gear sha256 fuel n c' = .ok answers) :
    nextChunks gear sha256 fuel (n + 1) c = .ok (answer :: answers) := by
  rw [nextChunks, hnext]
  dsimp only [bind, Except.bind]
  rw [hrest]
  rfl

/-- **The calls of `NextChunk`** answer what is ahead and then `io.EOF`. -/
theorem Stands.nextChunks (h : Stands x c) (hroom : Roomy c.cfg x) (hfuel : x.length < fuel)
    (n : Nat) : Go.nextChunks gear sha256 fuel n c = .ok (answersOf (ahead gear sha256 x c) n) := by
  induction n generalizing c with
  | zero => rw [answersOf_zero, Go.nextChunks]
  | succ n ih =>
    obtain ⟨c', hs, hcfg, ⟨hnil, hnil', hnext⟩ | ⟨chunk, hcons, hnext⟩⟩ :=
      h.nextChunk gear sha256 hroom hfuel
    · have hrest := ih hs (hcfg ▸ hroom)
      rw [hnil'] at hrest
      rw [hnil, answersOf_nil_succ]
      exact nextChunks_succ hnext hrest
    · rw [hcons, answersOf_cons_succ]
      exact nextChunks_succ hnext (ih hs (hcfg ▸ hroom))

/-- What a new chunker answers. -/
theorem nextChunks_newWithConfig (hx : Feeds reader x) (hroom : Roomy cfg.params x)
    (hfuel : x.length < fuel) (n : Nat) :
    nextChunks gear sha256 fuel n (newWithConfig reader cfg) =
      .ok (answersOf (chunksFrom gear cfg.params sha256 0 x) n) :=
  (stands_newWithConfig cfg hx).nextChunks hroom hfuel n

end

/-- **How the bytes are read does not show.** For every configuration with
`0 < MinChunk ≤ AvgChunk ≤ MaxChunk` there is one list of chunks of `x` that `ChunkAll` returns from
every error-free reader of `x`, and that the calls of `NextChunk` return from every such reader,
with `io.EOF` from then on. -/
theorem chunks_of_feeds (gear : GearTable) (sha256 : List UInt8 → List UInt8) (cfg : Config)
    (x : List UInt8) (hmin : 0 < cfg.minChunk) (havg : cfg.minChunk ≤ cfg.avgChunk)
    (hmax : cfg.avgChunk ≤ cfg.maxChunk) :
    ∃ chunks, ∀ reader, Feeds reader x → ∀ fuel, x.length < fuel →
      chunkAll gear sha256 fuel (newWithConfig reader cfg) = .ok (chunks, none) ∧
        ∀ n, nextChunks gear sha256 fuel n (newWithConfig reader cfg) =
          .ok ((chunks.take n).map .ok ++ List.replicate (n - chunks.length) (.error .eof)) := by
  obtain ⟨hmin', havg', hmax'⟩ := cfg.params_sizes hmin havg hmax
  have hroom : Roomy cfg.params x := .inl (by omega)
  refine ⟨_, fun reader hx fuel hfuel => ⟨chunkAll_eq gear sha256 hx hroom hfuel, fun n => ?_⟩⟩
  exact nextChunks_newWithConfig hx hroom hfuel n

/-- The five bytes of `smallReader` in single bytes, after an empty read. -/
def slowReader : Reader :=
  [⟨[], none⟩, ⟨[7], none⟩, ⟨[7], none⟩, ⟨[7], none⟩, ⟨[8], none⟩, ⟨[9], none⟩, ⟨[], some .eof⟩]

theorem feeds_slowReader : Feeds slowReader [7, 7, 7, 8, 9] :=
  ⟨.inl ⟨rfl, .inl ⟨rfl, .inl ⟨rfl, .inl ⟨rfl, .inl ⟨rfl, .inl ⟨rfl, .inr ⟨rfl, rfl⟩⟩⟩⟩⟩⟩⟩, rfl⟩

theorem chunks_of_feeds_slowReader :
    ∃ chunks, ∀ reader ∈ [smallReader, slowReader],
      chunkAll gearTable (fun bytes => bytes) 6 (newWithConfig reader smallConfig) =
          .ok (chunks, none) ∧
        nextChunks gearTable (fun bytes => bytes) 6 7 (newWithConfig reader smallConfig) =
          .ok ((chunks.take 7).map .ok ++ List.replicate (7 - chunks.length) (.error .eof)) := by
  obtain ⟨chunks, hread⟩ := chunks_of_feeds gearTable (fun bytes => bytes) smallConfig
    [7, 7, 7, 8, 9] (by decide) (by decide) (by decide)
  refine ⟨chunks, List.forall_mem_cons.2 ⟨?_, List.forall_mem_singleton.2 ?_⟩⟩
  · obtain ⟨hall, hcalls⟩ := hread smallReader feeds_smallReader 6 (by decide)
    exact ⟨hall, hcalls 7⟩
  · obtain ⟨hall, hcalls⟩ := hread slowReader feeds_slowReader 6 (by decide)
    exact ⟨hall, hcalls 7⟩

/-! ## Safe answers -/

/-- The number of bytes in the chunks among the answers. -/
def emitted (answers : List (Except Err Chunk)) : Nat :=
  (answers.map fun answer => answer.toOption.elim 0 Chunk.size).sum

@[simp] theorem emitted_ok_cons (d : Chunk) (answers : List (Except Err Chunk)) :
    emitted (.ok d :: answers) = d.size + emitted answers := by
  simp [emitted, Except.toOption]

@[simp] theorem emitted_error_cons (e : Err) (answers : List (Except Err Chunk)) :
    emitted (.error e :: answers) = emitted answers := by
  simp [emitted, Except.toOption]

/-- The answers to calls on the bytes `x`: none is `io.EOF` before all bytes have been emitted, and
no chunk is longer than `maxChunk`. -/
structure SafeAnswers (maxChunk : Nat) (x : List UInt8) (answers : List (Except Err Chunk)) :
    Prop where
  eof : ∀ before after, answers = before ++ .error .eof :: after → emitted before = x.length
  size : ∀ d, .ok d ∈ answers → d.size ≤ maxChunk

/-- `io.EOF` comes after all the chunks. -/
theorem emitted_of_answersOf (h : answersOf chunks n = before ++ .error .eof :: after) :
    emitted before = (chunks.map Chunk.size).sum := by
  induction n generalizing chunks before with
  | zero => simp at h
  | succ n ih =>
    cases chunks with
    | nil =>
      rw [answersOf_nil_succ] at h
      cases before with
      | nil => rfl
      | cons answer before =>
        obtain ⟨rfl, hrest⟩ := List.cons.inj h
        rw [emitted_error_cons, ih hrest]
    | cons d chunks =>
      rw [answersOf_cons_succ] at h
      cases before with
      | nil => cases (List.cons.inj h).1
      | cons answer before =>
        obtain ⟨rfl, hrest⟩ := List.cons.inj h
        rw [emitted_ok_cons, ih hrest, List.map_cons, List.sum_cons]

theorem ok_mem_answersOf : .ok d ∈ answersOf chunks n ↔ d ∈ chunks.take n := by
  simp [answersOf, -List.map_take]

/-- Chunks that take up `x` make safe answers exactly if none is too long. -/
theorem safeAnswers_answersOf_iff {maxChunk : Nat} {x : List UInt8} {chunks : List Chunk}
    (hsum : (chunks.map Chunk.size).sum = x.length) :
    (∀ n, SafeAnswers maxChunk x (answersOf chunks n)) ↔ ∀ d ∈ chunks, d.size ≤ maxChunk := by
  constructor
  · intro h d hd
    refine (h chunks.length).size d (ok_mem_answersOf.2 ?_)
    rwa [List.take_length]
  · intro h n
    refine ⟨fun before after heq => (emitted_of_answersOf heq).trans hsum, fun d hd => ?_⟩
    exact h d (List.mem_of_mem_take (ok_mem_answersOf.1 hd))

/-! ## The three sizes -/

/-- The search of a window goes beyond `MaxChunk`: below `AvgChunk` nothing stops it but a hit of
the first pass or the end of the window, and neither comes by `MaxChunk`. -/
structure Oversized (gear : GearTable) (cfg : Params) (data : List UInt8) : Prop where
  wide : cfg.maxChunk < cfg.avgChunk
  long : cfg.maxChunk < data.length
  quiet : ∀ p ≤ cfg.maxChunk, ¬ FirstHit gear cfg data p
  stops : data.length < cfg.avgChunk ∨
    ∃ p ≤ data.length, p < cfg.avgChunk ∧ FirstHit gear cfg data p

/-- **A cut is longer than `MaxChunk` exactly if its search goes beyond it.** -/
theorem maxChunk_lt_windowCut_iff (gear : GearTable) (cfg : Params) (data : List UInt8) :
    cfg.maxChunk < windowCut gear cfg data ↔ Oversized gear cfg data := by
  have hstops := stopsAt_windowCut gear cfg data
  have hminpos := cfg.min_pos
  generalize windowCut gear cfg data = n at hstops ⊢
  rcases hstops with ⟨hpos, hle, hhit, hbefore⟩ | ⟨hnone, ⟨hshort, rfl⟩ | ⟨hlong, hfirst⟩⟩
  · -- the first pass hit after `n` bytes
    constructor
    · intro hlt
      refine ⟨by omega, by omega, fun p hp hfirst => ?_, .inr ⟨n, by omega, by omega, hhit⟩⟩
      have := hfirst.1
      exact hbefore p (by omega) (by omega) hfirst
    · intro h
      by_contra hge
      exact h.quiet n (by omega) hhit
  · -- the window ended before `AvgChunk`
    constructor
    · intro hlt
      refine ⟨by omega, hlt, fun p hp hfirst => ?_, .inl hshort⟩
      have := hfirst.1
      exact hnone p (by omega) (by omega) hfirst
    · exact Oversized.long
  · -- the second pass knows `MaxChunk`
    have hmax := hfirst.le
    constructor
    · intro hlt
      omega
    · rintro ⟨-, -, -, hshort | ⟨p, hp, havg, hhit⟩⟩
      · omega
      · have := hhit.1
        exact absurd hhit (hnone p (by omega) (by omega))

/-- The tiling's chunks are no longer than `MaxChunk` exactly if no search goes beyond it. -/
theorem size_le_maxChunk_iff (gear : GearTable) (cfg : Params) (sha256 : List UInt8 → List UInt8)
    (x : List UInt8) :
    (∀ d ∈ chunksFrom gear cfg sha256 0 x, d.size ≤ cfg.maxChunk) ↔
      ∀ d ∈ chunksFrom gear cfg sha256 0 x,
        ¬ Oversized gear cfg (window cfg d.offset (x.drop d.offset)) := by
  refine forall₂_congr fun d hd => ?_
  obtain ⟨n, -, rfl⟩ := (rule gear cfg).exists_of_mem_tile _ hd
  rw [← maxChunk_lt_windowCut_iff, Nat.not_lt, chunkOf, CutRule.drop_zipIdx, rule_cut]
  simp only [Nat.zero_add, cutFrom]

/-- With `MinChunk` above `MaxChunk`, a full read is too little to cut: the first call answers
`io.EOF`. -/
theorem nextChunk_of_not_roomy (gear : GearTable) (sha256 : List UInt8 → List UInt8)
    (hx : Feeds reader x) (hroom : ¬ Roomy cfg.params x) (hfuel : x.length < fuel) :
    ∃ c, nextChunk gear sha256 fuel (newWithConfig reader cfg) = .ok (.error .eof, c) := by
  obtain ⟨hlim, hlong⟩ := not_or.1 hroom
  obtain ⟨got, readErr, chunks, c, hread, hrun, -, -, -, hsum, hcuts, -⟩ :=
    (held_newWithConfig reader cfg).readUntilCut gear sha256 (Nat.zero_le _) (hx.2 ▸ hfuel)
  obtain ⟨readErr', rest', hread', -, herr, -⟩ := hx.readFull cfg.params.maxChunk
  cases hread.symm.trans hread'
  have hshort : 0 + (0 + (x.take cfg.params.maxChunk).length) < 0 + cfg.params.minChunk := by
    rw [List.length_take]
    omega
  obtain rfl := herr.2 (by omega)
  obtain rfl := hcuts.nil_of_short (.inr ⟨rfl, hsum ▸ hshort⟩)
  refine ⟨c, ?_⟩
  unfold nextChunk
  show Except.bind (readUntilCut gear sha256 fuel (newWithConfig reader cfg)) _ = _
  rw [hrun]
  rfl

/-- **When the calls are safe.** For every configuration, every byte string and every error-free
reader of it: the calls of `NextChunk` never slice out of range, never answer `io.EOF` before all
bytes have been emitted and never emit a chunk longer than `MaxChunk`, exactly if `MinChunk` is no
more than `MaxChunk` or the input shorter than `MaxChunk`, and at the start of no chunk the search
goes beyond `MaxChunk`. -/
theorem nextChunks_safe_iff (gear : GearTable) (sha256 : List UInt8 → List UInt8) (cfg : Config)
    (x : List UInt8) (reader : Reader) (fuel : Nat) (hx : Feeds reader x)
    (hfuel : x.length < fuel) :
    ∃ chunks, chunkAll gear sha256 fuel (newWithConfig reader cfg) = .ok (chunks, none) ∧
      ((∀ n, ∃ answers, nextChunks gear sha256 fuel n (newWithConfig reader cfg) = .ok answers ∧
          SafeAnswers cfg.params.maxChunk x answers) ↔
        (cfg.params.minChunk ≤ cfg.params.maxChunk ∨ x.length < cfg.params.maxChunk) ∧
          ∀ d ∈ chunks,
            ¬ Oversized gear cfg.params (window cfg.params d.offset (x.drop d.offset))) := by
  by_cases hroom : Roomy cfg.params x
  · refine ⟨_, chunkAll_eq gear sha256 hx hroom hfuel, ?_⟩
    have hsum : ((chunksFrom gear cfg.params sha256 0 x).map Chunk.size).sum = x.length :=
      sum_size_chunksFrom gear cfg.params sha256 x
    rw [← size_le_maxChunk_iff, ← safeAnswers_answersOf_iff hsum]
    constructor
    · intro h
      refine ⟨hroom, fun n => ?_⟩
      obtain ⟨answers, hanswers, hsafe⟩ := h n
      cases (nextChunks_newWithConfig hx hroom hfuel n).symm.trans hanswers
      exact hsafe
    · rintro ⟨-, h⟩ n
      exact ⟨_, nextChunks_newWithConfig hx hroom hfuel n, h n⟩
  · obtain ⟨c, hnext⟩ := nextChunk_of_not_roomy gear sha256 hx hroom hfuel
    refine ⟨[], ?_, fun h => ?_, fun h => absurd h.1 hroom⟩
    · obtain ⟨fuel, rfl⟩ := Nat.exists_eq_succ_of_ne_zero (Nat.ne_of_gt (Nat.zero_lt_of_lt hfuel))
      rw [chunkAll, chunkAllLoop, hnext]
      rfl
    · -- the first call answers `io.EOF`, and `x` is not empty
      obtain ⟨answers, hanswers, hsafe⟩ := h 1
      cases (nextChunks_succ hnext (n := 0) rfl).symm.trans hanswers
      have hempty : 0 = x.length := hsafe.eof [] [] rfl
      have hmaxpos := cfg.params.max_pos
      exact absurd (.inr (by omega)) hroom

theorem nextChunks_safe_small :
    smallConfig.params.minChunk ≤ smallConfig.params.maxChunk ∧
    ∀ n, ∃ answers, nextChunks gearTable (fun bytes => bytes) 6 n
        (newWithConfig smallReader smallConfig) = .ok answers ∧
      SafeAnswers smallConfig.params.maxChunk [7, 7, 7, 8, 9] answers := by
  obtain ⟨chunks, -, hiff⟩ := nextChunks_safe_iff gearTable (fun bytes => bytes) smallConfig
    [7, 7, 7, 8, 9] smallReader 6 feeds_smallReader (by decide)
  have hle : smallConfig.params.minChunk ≤ smallConfig.params.maxChunk := by decide
  exact ⟨hle, hiff.2 ⟨.inl hle, fun d _ h => absurd h.wide (by decide)⟩⟩

/-- Sizes with `MinChunk` above `MaxChunk`, and with `AvgChunk` above `MaxChunk`. -/
def crossedConfig : Config :=
  { minChunk := 5, avgChunk := 5, maxChunk := 2, maskS := 1, maskL := 1 }

@[inherit_doc crossedConfig] def wideConfig : Config :=
  { minChunk := 2, avgChunk := 5, maxChunk := 3, maskS := 1, maskL := 1 }

/-- With `crossedConfig` the first call answers `io.EOF` with nothing emitted, and the third slices
out of range; with `wideConfig` the second chunk has four bytes. -/
theorem nextChunks_not_safe :
    (∃ answers, nextChunks gearTable (fun bytes => bytes) 5 1
          (newWithConfig [⟨[1, 2, 3, 4], none⟩] crossedConfig) = .ok answers ∧
        ¬ SafeAnswers crossedConfig.params.maxChunk [1, 2, 3, 4] answers) ∧
      nextChunks gearTable (fun bytes => bytes) 5 3
          (newWithConfig [⟨[1, 2, 3, 4], none⟩] crossedConfig) = .error .sliceOutOfRange ∧
      ∃ answers, nextChunks gearTable (fun bytes => bytes) 7 2
          (newWithConfig [⟨[0, 2, 0, 0, 0, 0], none⟩] wideConfig) = .ok answers ∧
        ¬ SafeAnswers wideConfig.params.maxChunk [0, 2, 0, 0, 0, 0] answers := by
  refine ⟨⟨[.error .eof], by decide +kernel, fun h => ?_⟩, by decide +kernel,
    [.ok ⟨['0', '0', '0', '2'], 0, 2⟩,
      .ok ⟨['0', '0', '0', '0', '0', '0', '0', '0'], 2, 4⟩], by decide +kernel, fun h => ?_⟩
  · exact absurd (h.eof [] [] rfl) (by decide)
  · exact absurd (h.size _ (List.mem_cons_of_mem _ List.mem_cons_self)) (by decide)

end Aegis.FastCdc.Go
