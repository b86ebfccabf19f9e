import Aegis.FastCdc.Cut

/-!
# What `chunk_all` returns

A run of `next_chunk` calls over an error-free reader is the tiling of the input by the cut rule
(`Stands.chunkAllLoop`). Its descriptors therefore tile the input exactly, with the chunk sizes the
configuration promises (`chunkAll_tiles`); and since the tiling mentions neither the buffer nor the
reader, two readers of the same bytes give the same descriptors (`chunker_reader_independent`).
-/

namespace Aegis.FastCdc

/-- A reader without errors that hands out the given pieces and then `0`. -/
def readerOf (pieces : List Delivery) : Reader := pieces.map .ok

/-- The pieces are non-empty and concatenate to `x`. -/
def Delivers (pieces : List Delivery) (x : List UInt8) : Prop :=
  (∀ d ∈ pieces, d.bytes ≠ []) ∧ pieces.flatMap (·.bytes) = x

/-- An error-free reader has no errors pending. -/
theorem pendingErrors_readerOf (pieces : List Delivery) : pendingErrors (readerOf pieces) = [] := by
  induction pieces with
  | nil => rfl
  | cons d rest ih => exact ih

/-- What an error-free reader delivers is its pieces. -/
theorem undelivered_readerOf (pieces : List Delivery) :
    undelivered (readerOf pieces) = pieces.flatMap (·.bytes) := by
  induction pieces with
  | nil => rfl
  | cons d rest ih => exact congrArg (d.bytes ++ ·) ih

variable {fuel : Nat} {cfg : Config} {pieces : List Delivery}

/-- A fresh stream stands at what its reader delivers. -/
theorem stands_withConfig_reader (hv : cfg.Valid) (hne : ∀ d, .ok d ∈ reader → d.bytes ≠ []) :
    ∃ st, withConfig reader cfg = .ok st ∧ Stands st (undelivered reader) ∧ st.cfg = cfg ∧
      st.globalOffset = 0 ∧ st.reader = reader ∧ st.eof = false := by
  refine ⟨{ reader := reader, buffer := [], globalOffset := 0, gearMatrix := cfg.gear, cfg
            eof := false, valid := hv, gear_eq := rfl }, ?_, ⟨rfl, hne, nofun⟩, rfl, rfl, rfl, rfl⟩
  have hok := Config.validate_eq_ok_iff.2 hv
  unfold withConfig
  split
  · next e he => rw [hok] at he; cases he
  · rfl

theorem ok_mem_readerOf (hd : .ok d ∈ readerOf pieces) : d ∈ pieces := by
  obtain ⟨d', hd', heq⟩ := List.mem_map.1 hd
  cases heq
  exact hd'

/-- A fresh stream over a reader of `x` stands at `x`. -/
theorem stands_withConfig (hv : cfg.Valid) (hx : Delivers pieces x) :
    ∃ st, withConfig (readerOf pieces) cfg = .ok st ∧ Stands st x ∧ st.cfg = cfg ∧
      st.globalOffset = 0 ∧ pendingErrors st.reader = [] := by
  obtain ⟨hne, rfl⟩ := hx
  obtain ⟨st, hst, hs, hc, hoff, hreader, -⟩ :=
    stands_withConfig_reader hv fun d hd => hne d (ok_mem_readerOf hd)
  rw [undelivered_readerOf] at hs
  exact ⟨st, hst, hs, hc, hoff, hreader ▸ pendingErrors_readerOf pieces⟩

section
variable {Digest : Type} (host : Host Digest)

/-! ## Features -/

variable {payload s : List UInt8}

/-- The only panic of the features is the histogram's. -/
theorem features_error (h : features host cfg payload phase = .error p) : p = .histogramCount := by
  unfold features entropyQ8 at h
  split at h
  · split at h
    · cases h
    · split at h <;> cases h
      rfl
  · cases h

variable {host} in
/-- The features are the bit of the phase over the quantised entropy, if that is computed. -/
theorem features_eq_or (h : features host cfg payload phase = .ok v) :
    ∃ e, v = e ||| phase.featureBit ∧
      (e = 0 ∨ e = host.quantize (histogram payload) payload.length) := by
  unfold features entropyQ8 at h
  split at h
  · split at h
    · cases h
      exact ⟨0, rfl, .inl rfl⟩
    · split at h <;> cases h
      exact ⟨_, rfl, .inr rfl⟩
  · cases h
    exact ⟨0, (UInt32.zero_or).symm, .inl rfl⟩

/-- A payload of fewer than `2^32` bytes has features. -/
theorem features_ok (cfg : Config) (phase : CutPhase) (h : payload.length < 2 ^ 32) :
    ∃ v, features host cfg payload phase = .ok v := by
  cases hf : features host cfg payload phase with
  | ok v => exact ⟨v, rfl⟩
  | error p =>
    exfalso
    have hany : (histogram payload).any (2 ^ 32 ≤ ·) = false := by
      refine List.any_eq_false.2 fun n hn => ?_
      obtain ⟨b, -, rfl⟩ := List.mem_map.1 hn
      have := List.count_le_length (a := UInt8.ofNat b) (l := payload)
      simp only [decide_eq_true_eq]
      omega
    unfold features entropyQ8 at hf
    rw [hany] at hf
    split at hf
    · split at hf <;> cases hf
    · cases hf

/-- No call answers with the assertion of `cut_point`. -/
theorem emit_ne_hardMaxPending (cfg : Config) (off : Nat) (s : List UInt8) :
    emit host cfg off s ≠ .error (.panic .hardMaxPending) := by
  intro h
  unfold emit at h
  split at h
  · cases h
  · split at h
    · next p hp =>
      cases h
      cases hf : features host cfg (s.take (cutAt cfg s).1) (cutAt cfg s).2 with
      | error p' =>
        obtain rfl := features_error host hf
        simp [describe, hf, bind, Except.bind] at hp
      | ok v => simp [describe, hf, bind, Except.bind, pure, Except.pure] at hp
    · cases h

/-- The descriptor of the first piece of `s`, which starts at `off`. -/
def descriptor (cfg : Config) (off : Nat) (s : List UInt8) : ChunkDescriptor Digest where
  hash := host.sha256 (s.take (cutAt cfg s).1)
  offset := off
  length := (s.take (cutAt cfg s).1).length
  contentFeatures :=
    (features host cfg (s.take (cutAt cfg s).1) (cutAt cfg s).2).toOption.getD 0

/-- The features of the first piece of `s` can be computed. -/
def HasFeatures (cfg : Config) (s : List UInt8) : Prop :=
  ∃ v, features host cfg (s.take (cutAt cfg s).1) (cutAt cfg s).2 = .ok v

/-- A call answers with the descriptor if the features can be computed, and else panics. -/
theorem emit_cases (cfg : Config) (off : Nat) (hs : s ≠ []) :
    (HasFeatures host cfg s ∧ emit host cfg off s = .ok (some (descriptor host cfg off s))) ∨
      ∃ p, ¬ HasFeatures host cfg s ∧ emit host cfg off s = .error (.panic p) := by
  cases hf : features host cfg (s.take (cutAt cfg s).1) (cutAt cfg s).2 with
  | ok v =>
    refine .inl ⟨⟨v, hf⟩, ?_⟩
    simp [emit, describe, descriptor, hs, hf, bind, Except.bind, pure, Except.pure,
      Except.toOption]
  | error p =>
    refine .inr ⟨p, ?_, ?_⟩
    · rintro ⟨v, hv⟩
      cases hf.symm.trans hv
    · simp [emit, describe, hs, hf, bind, Except.bind]

/-- Below `2^32` bytes a chunk features can be computed. -/
theorem hasFeatures_of_lt (hv : cfg.Valid) (hmax : cfg.maxChunk < 2 ^ 32) (s : List UInt8) :
    HasFeatures host cfg s := by
  refine features_ok host cfg (cutAt cfg s).2 ?_
  have := cutAt_le hv s
  rw [List.length_take]
  omega

/-- No piece of `s` panics. -/
def Quiet (cfg : Config) (hv : cfg.Valid) (s : List UInt8) : Prop :=
  ∀ r ∈ (cutRule cfg hv).rests s, HasFeatures host cfg r

theorem quiet_iff (hv : cfg.Valid) (hs : s ≠ []) :
    Quiet host cfg hv s ↔
      HasFeatures host cfg s ∧ Quiet host cfg hv (s.drop (cutAt cfg s).1) := by
  unfold Quiet
  rw [(cutRule cfg hv).rests_of_ne hs, List.forall_mem_cons, cutRule_cut]

/-! ## Runs -/

variable {st : FastCDCStream}

/-- A run over the bytes `s` ends: some result is reached within `s.length + 1` rounds. -/
theorem Stands.chunkAllLoop_isSome (h : Stands st s) (herr : pendingErrors st.reader = [])
    (hfuel : s.length < fuel) (out : List (ChunkDescriptor Digest)) :
    (chunkAllLoop host fuel st out).isSome := by
  induction fuel generalizing st s out with
  | zero => omega
  | succ fuel ih =>
    obtain ⟨st', hcfg, hn, hs, -, herr'⟩ := (h.nextChunk host).of_quiet herr
    rw [chunkAllLoop, hn]
    rcases eq_or_ne s [] with rfl | hne
    · rfl
    · cases emit host st.cfg st.globalOffset s with
      | error f => rfl
      | ok o =>
        cases o with
        | none => rfl
        | some d =>
          have hlt := (cutRule st.cfg st.valid).length_drop_lt hne
          exact ih hs herr' (by rw [cutRule_cut] at hlt; omega) _

/-- **A run is a tiling.** `chunk_all` over a stream that stands at `s` returns the descriptors of
the tiling of `s`, unless one of its pieces panics. -/
theorem Stands.chunkAllLoop_eq_ok_iff (hv : cfg.Valid) (h : Stands st s) (hcfg : st.cfg = cfg)
    (herr : pendingErrors st.reader = []) (hfuel : s.length < fuel)
    (out ds : List (ChunkDescriptor Digest)) :
    chunkAllLoop host fuel st out = some (.ok ds) ↔ Quiet host cfg hv s ∧
      ds = out ++ (cutRule cfg hv).tile (descriptor host cfg) st.globalOffset s := by
  induction fuel generalizing st s out with
  | zero => omega
  | succ fuel ih =>
    obtain ⟨st', hcfg', hn, hs, hoff, herr'⟩ := (h.nextChunk host).of_quiet herr
    rw [hcfg] at hn hs hoff
    rw [FastCdc.chunkAllLoop, hn]
    rcases eq_or_ne s [] with rfl | hne
    · simp [emit, Quiet, eq_comm]
    have hlt := (cutRule cfg hv).length_drop_lt hne
    rw [cutRule_cut] at hlt
    rw [quiet_iff host hv hne]
    rcases emit_cases host cfg st.globalOffset hne with ⟨hf, hemit⟩ | ⟨p, hf, hemit⟩
    · simp only [hemit]
      rw [ih hs (hcfg'.trans hcfg) herr' (by omega), (cutRule cfg hv).tile_of_ne _ hne, hoff]
      simp [offsetAfter, hemit, hf]
    · simp [hemit, hf]

/-- With fewer than `2^32` bytes a chunk, `chunk_all` over a stream that stands at `s` returns the
descriptors of the tiling of `s`. -/
theorem Stands.chunkAllLoop (hv : cfg.Valid) (hmax : cfg.maxChunk < 2 ^ 32) (h : Stands st s)
    (hcfg : st.cfg = cfg) (herr : pendingErrors st.reader = []) (hfuel : s.length < fuel)
    (out : List (ChunkDescriptor Digest)) :
    chunkAllLoop host fuel st out =
      some (.ok (out ++ (cutRule cfg hv).tile (descriptor host cfg) st.globalOffset s)) :=
  (h.chunkAllLoop_eq_ok_iff host hv hcfg herr hfuel out _).2
    ⟨fun r _ => hasFeatures_of_lt host hv hmax r, rfl⟩

/-- Two streams that stand at the same bytes, at the same offset and with the same configuration,
answer every sequence of calls alike. -/
theorem Stands.nextChunks_congr (h₁ : Stands st₁ s) (h₂ : Stands st₂ s) (hcfg : st₁.cfg = st₂.cfg)
    (hoff : st₁.globalOffset = st₂.globalOffset) (herr₁ : pendingErrors st₁.reader = [])
    (herr₂ : pendingErrors st₂.reader = []) (n : Nat) :
    nextChunks host n st₁ = nextChunks host n st₂ ∧
      .error (.panic .hardMaxPending) ∉ nextChunks host n st₁ := by
  induction n generalizing s st₁ st₂ with
  | zero => exact ⟨rfl, by simp [nextChunks]⟩
  | succ n ih =>
    obtain ⟨t₁, hc₁, hn₁, hs₁, ho₁, he₁⟩ := (h₁.nextChunk host).of_quiet herr₁
    obtain ⟨t₂, hc₂, hn₂, hs₂, ho₂, he₂⟩ := (h₂.nextChunk host).of_quiet herr₂
    rw [hcfg] at hs₁
    rw [hcfg, hoff] at ho₁
    obtain ⟨hrest, hmem⟩ :=
      ih hs₁ hs₂ (hc₁.trans (hcfg.trans hc₂.symm)) (ho₁.trans ho₂.symm) he₁ he₂
    simp only [nextChunks, hn₁, hn₂]
    refine ⟨by rw [hrest, hcfg, hoff], ?_⟩
    rw [List.mem_cons, not_or]
    exact ⟨(emit_ne_hardMaxPending host _ _ _).symm, hmem⟩

/-- Streams that answer every sequence of calls alike are chunked alike. -/
theorem chunkAllLoop_congr (h : ∀ n, nextChunks host n st₁ = nextChunks host n st₂) (fuel : Nat)
    (out : List (ChunkDescriptor Digest)) :
    chunkAllLoop host fuel st₁ out = chunkAllLoop host fuel st₂ out := by
  induction fuel generalizing st₁ st₂ out with
  | zero => rfl
  | succ fuel ih =>
    have hhead := (List.cons.inj (h 1)).1
    have htail n := (List.cons.inj (h (n + 1))).2
    rw [chunkAllLoop, chunkAllLoop, ← Prod.mk.eta (p := nextChunk host st₁), hhead]
    rcases hnext : nextChunk host st₂ with ⟨e | (_ | d), st⟩
    · rfl
    · rfl
    · rw [hnext] at htail
      exact ih htail _

end

/-- What `chunk_all` returns over an error-free reader of `x`. -/
theorem chunkAll_eq_ok_iff (host : Host Digest) (hv : cfg.Valid) (hx : Delivers pieces x)
    (hfuel : x.length < fuel) :
    chunkAll host fuel (readerOf pieces) cfg = some (.ok ds) ↔
      Quiet host cfg hv x ∧ ds = (cutRule cfg hv).tile (descriptor host cfg) 0 x := by
  obtain ⟨st, hst, hs, hc, hoff, herr⟩ := stands_withConfig hv hx
  rw [chunkAll, hst]
  show chunkAllLoop host fuel st [] = some (.ok ds) ↔ _
  rw [hs.chunkAllLoop_eq_ok_iff host hv hc herr hfuel, hoff, List.nil_append]

/-! ## The descriptors tile the input -/

/-- A list of descriptors tiles `x`: contiguous from `0`, covering `x`, each addressed by the hash
of its own bytes, and every chunk of a size the configuration allows. -/
structure Tiles {Digest : Type} (sha256 : List UInt8 → Digest) (cfg : Config) (x : List UInt8)
    (ds : List (ChunkDescriptor Digest)) : Prop where
  first : ∀ d ∈ ds.head?, d.offset = 0
  next : ds.IsChain fun d e => e.offset = d.offset + d.length
  total : (ds.map (·.length)).sum = x.length
  hash : ∀ d ∈ ds, d.hash = sha256 (slice x d.offset (d.offset + d.length))
  inner : ∀ d ∈ ds.dropLast, cfg.minChunk < d.length ∧ d.length ≤ cfg.maxChunk
  last : ∀ d ∈ ds.getLast?, 1 ≤ d.length ∧ d.length ≤ cfg.maxChunk
  empty_iff : ds = [] ↔ x = []

/-- The descriptors of the tiling of `x` tile `x`. -/
theorem tiles_tile (host : Host Digest) (hv : cfg.Valid) (x : List UInt8) :
    Tiles host.sha256 cfg x ((cutRule cfg hv).tile (descriptor host cfg) 0 x) := by
  have hlen (off : Nat) (s : List UInt8) :
      (descriptor host cfg off s).length = (cutRule cfg hv).cut s :=
    (cutRule cfg hv).length_take_cut s
  have hle (s : List UInt8) : (cutRule cfg hv).cut s ≤ cfg.maxChunk :=
    (cutAt_le hv s).trans (Nat.min_le_right _ _)
  refine ⟨?_, ?_, ?_, ?_, ?_, ?_, (cutRule cfg hv).tile_eq_nil_iff _⟩
  · intro d hd
    rw [(cutRule cfg hv).head?_tile _ hd]
    rfl
  · refine (cutRule cfg hv).isChain_tile _ (fun off s => ?_) 0 x
    rw [hlen]
    rfl
  · exact (cutRule cfg hv).sum_map_tile _ hlen 0 x
  · intro d hd
    obtain ⟨n, -, rfl⟩ := (cutRule cfg hv).exists_of_mem_tile _ hd
    rw [hlen, cutRule_cut]
    simp [descriptor, slice]
  · intro d hd
    obtain ⟨n, hlt, rfl⟩ := (cutRule cfg hv).exists_of_mem_dropLast_tile _ _ d hd
    rw [hlen]
    refine ⟨?_, hle _⟩
    rw [cutRule_cut] at hlt ⊢
    have hv' := hv
    unfold Config.Valid at hv'
    rcases cutAt_fst_cases hv (x.drop n) with h | h <;> omega
  · intro d hd
    obtain ⟨n, hne, rfl⟩ := (cutRule cfg hv).exists_of_mem_tile _ (List.mem_of_getLast? hd)
    rw [hlen]
    exact ⟨(cutRule cfg hv).pos hne, hle _⟩

/-- What depends on the places of the descriptors depends on the tiling's offsets and cuts. -/
theorem map_tile_descriptor (host : Host Digest) (hv : cfg.Valid) (k : Nat → Nat → γ)
    (x : List UInt8) :
    ((cutRule cfg hv).tile (descriptor host cfg) 0 x).map (fun d => k d.offset d.length) =
      (cutRule cfg hv).tile (fun o r => k o ((cutRule cfg hv).cut r)) 0 x := by
  rw [(cutRule cfg hv).map_tile]
  congr 1
  funext o r
  exact congrArg (k o) ((cutRule cfg hv).length_take_cut r)

/-- **`chunk_all` tiles its input.** Over every error-free reader of `x`, with every accepted
configuration of chunks below `2^32` bytes, `chunk_all` terminates with descriptors that tile
`x`. -/
theorem chunkAll_tiles {Digest : Type} (host : Host Digest) (cfg : Config) (x : List UInt8)
    (pieces : List Delivery) (hcfg : cfg.validate = .ok ()) (hmax : cfg.maxChunk < 2 ^ 32)
    (hx : Delivers pieces x) :
    ∃ ds, (∀ fuel, x.length < fuel → chunkAll host fuel (readerOf pieces) cfg = some (.ok ds)) ∧
      Tiles host.sha256 cfg x ds := by
  have hv := Config.validate_eq_ok_iff.1 hcfg
  refine ⟨_, fun fuel hfuel => ?_, tiles_tile host hv x⟩
  obtain ⟨st, hst, hs, hc, hoff, herr⟩ := stands_withConfig hv hx
  rw [chunkAll, hst]
  exact (hs.chunkAllLoop host hv hmax hc herr hfuel []).trans (by rw [hoff, List.nil_append])

/-- A three-byte configuration, small enough to chunk by hand. -/
def tinyConfig : Config where
  minChunk := 1
  avgChunk := 2
  maxChunk := 3
  maskS := 1
  maskL := 3
  gear b := b.toUInt32
  computeFeatures := true

/-- A host whose digest of a chunk is the chunk. -/
def identityHost : Host (List UInt8) where
  simd := .scalar
  sha256 bytes := bytes
  quantize _ _ := 0

/-- The pieces `[7]` and `[7, 7, 7]`. -/
def tinyPieces : List Delivery :=
  [⟨[7], by decide⟩, ⟨[7, 7, 7], by decide⟩]

theorem delivers_tinyPieces : Delivers tinyPieces [7, 7, 7, 7] := by
  refine ⟨?_, rfl⟩
  simp [tinyPieces]

theorem chunkAll_tinyPieces : chunkAll identityHost 5 (readerOf tinyPieces) tinyConfig =
    some (.ok [⟨[7, 7, 7], 0, 3, CutPhase.hardMax.featureBit⟩,
      ⟨[7], 3, 1, CutPhase.eofTail.featureBit⟩]) := by
  decide +kernel

/-- Four bytes in two reads, cut at the ceiling of three. -/
theorem chunkAll_tiles_tinyConfig :
    ∃ ds, (∀ fuel, 4 < fuel →
        chunkAll identityHost fuel (readerOf tinyPieces) tinyConfig = some (.ok ds)) ∧
      Tiles identityHost.sha256 tinyConfig [7, 7, 7, 7] ds :=
  chunkAll_tiles identityHost tinyConfig [7, 7, 7, 7] tinyPieces rfl (by decide)
    delivers_tinyPieces

/-- **The chunker does not see how its bytes arrive.** Two error-free readers of the same bytes
give the same answers to every sequence of `next_chunk` calls and the same `chunk_all`, which
ends; and no call fails the assertion of `cut_point`. -/
theorem chunker_reader_independent {Digest : Type} (host : Host Digest) (cfg : Config)
    (x : List UInt8) (p q : List Delivery) (hcfg : cfg.validate = .ok ()) (hp : Delivers p x)
    (hq : Delivers q x) :
    ∃ st₁ st₂, withConfig (readerOf p) cfg = .ok st₁ ∧ withConfig (readerOf q) cfg = .ok st₂ ∧
      (∀ n, nextChunks host n st₁ = nextChunks host n st₂) ∧
      (∀ n, .error (.panic .hardMaxPending) ∉ nextChunks host n st₁) ∧
      (∀ fuel, chunkAll host fuel (readerOf p) cfg = chunkAll host fuel (readerOf q) cfg) ∧
      ∀ fuel, x.length < fuel → (chunkAll host fuel (readerOf p) cfg).isSome := by
  have hv := Config.validate_eq_ok_iff.1 hcfg
  obtain ⟨st₁, hst₁, hs₁, hc₁, ho₁, he₁⟩ := stands_withConfig hv hp
  obtain ⟨st₂, hst₂, hs₂, hc₂, ho₂, he₂⟩ := stands_withConfig hv hq
  have hcfg := hc₁.trans hc₂.symm
  have hoff := ho₁.trans ho₂.symm
  refine ⟨st₁, st₂, hst₁, hst₂, fun n => ?_, fun n => ?_, fun fuel => ?_, fun fuel hfuel => ?_⟩
  · exact (hs₁.nextChunks_congr host hs₂ hcfg hoff he₁ he₂ n).1
  · exact (hs₁.nextChunks_congr host hs₂ hcfg hoff he₁ he₂ n).2
  · simp only [chunkAll, hst₁, hst₂]
    exact chunkAllLoop_congr host
      (fun n => (hs₁.nextChunks_congr host hs₂ hcfg hoff he₁ he₂ n).1) fuel []
  · simp only [chunkAll, hst₁]
    exact hs₁.chunkAllLoop_isSome host he₁ hfuel []

/-- The same four bytes in one read. -/
def tinyPiece : List Delivery := [⟨[7, 7, 7, 7], by decide⟩]

theorem chunker_reader_independent_tinyConfig :
    ∃ st₁ st₂, withConfig (readerOf tinyPieces) tinyConfig = .ok st₁ ∧
      withConfig (readerOf tinyPiece) tinyConfig = .ok st₂ ∧
      (∀ n, nextChunks identityHost n st₁ = nextChunks identityHost n st₂) ∧
      (∀ n, .error (.panic .hardMaxPending) ∉ nextChunks identityHost n st₁) ∧
      (∀ fuel, chunkAll identityHost fuel (readerOf tinyPieces) tinyConfig =
        chunkAll identityHost fuel (readerOf tinyPiece) tinyConfig) ∧
      ∀ fuel, 4 < fuel →
        (chunkAll identityHost fuel (readerOf tinyPieces) tinyConfig).isSome :=
  chunker_reader_independent identityHost tinyConfig [7, 7, 7, 7] tinyPieces tinyPiece rfl
    delivers_tinyPieces ⟨by simp [tinyPiece], rfl⟩

end Aegis.FastCdc
