import Aegis.FastCdc.GoChunking

/-!
# The Go chunker on a reader that fails

`NextChunk` drops the error of a read that comes with chunks: `readUntilCut` cuts what it has, and
the next call reads on. So an error in the middle of the input changes where the cuts are, and the
input is tiled all the same; `ChunkAll` returns an error only if a read fails with nothing in the
buffer. It follows that chunks returned without an error tile the whole input, whatever the reads
answered on the way (`chunkAll_covers`).
-/

namespace Aegis.FastCdc.Go

/-! ## Readers that deliver -/

/-- The reader delivers the bytes `s`, with errors in between, before it answers `io.EOF`. -/
def Delivers (reader : Reader) (s : List UInt8) : Prop :=
  EndsOnce reader ∧ reader.flatMap (·.bytes) = s

/-! ## Chunks from one offset to another -/

section
variable (sha256 : List UInt8 → List UInt8) (maxChunk : Nat) (x : List UInt8)

/-- The chunks tile `x` from one offset to another. -/
inductive Covers : Nat → List Chunk → Nat → Prop
  | nil (o : Nat) : Covers o [] o
  | cons {o n o' : Nat} {chunks : List Chunk} : 0 < n → n ≤ maxChunk → o + n ≤ x.length →
    Covers (o + n) chunks o' → Covers o (chunkAt sha256 x o n :: chunks) o'

variable {sha256 maxChunk x} {o o' o'' : Nat} {chunks chunks' : List Chunk}

theorem Covers.append (h : Covers sha256 maxChunk x o chunks o')
    (h' : Covers sha256 maxChunk x o' chunks' o'') :
    Covers sha256 maxChunk x o (chunks ++ chunks') o'' := by
  induction h with
  | nil o => exact h'
  | cons hpos hmax hin _ ih => exact .cons hpos hmax hin (ih h')

theorem Covers.length_le (h : Covers sha256 maxChunk x o chunks o') : o + chunks.length ≤ o' := by
  induction h with
  | nil o => exact le_rfl
  | cons hpos _ _ _ ih =>
    rw [List.length_cons]
    omega

theorem Covers.sum_size (h : Covers sha256 maxChunk x o chunks o') :
    o + (chunks.map (·.size)).sum = o' := by
  induction h with
  | nil o => rfl
  | cons _ _ _ _ ih =>
    rw [List.map_cons, List.sum_cons, ← ih]
    exact (Nat.add_assoc ..).symm

/-- A chunk starts where those before it end. -/
theorem Covers.offset_eq (h : Covers sha256 maxChunk x o chunks o') (hd : chunks[i]? = some d) :
    d.offset = o + ((chunks.take i).map (·.size)).sum := by
  induction h generalizing i with
  | nil o => cases hd
  | cons _ _ _ _ ih =>
    cases i with
    | zero =>
      cases hd
      rfl
    | succ i =>
      rw [ih (by simpa using hd), List.take_succ_cons, List.map_cons, List.sum_cons]
      exact Nat.add_assoc ..

theorem Covers.mem (h : Covers sha256 maxChunk x o chunks o') (hd : d ∈ chunks) :
    ∃ p n, d = chunkAt sha256 x p n ∧ 0 < n ∧ n ≤ maxChunk := by
  induction h with
  | nil o => cases hd
  | cons hpos hmax _ _ ih =>
    rcases List.mem_cons.1 hd with rfl | hd
    · exact ⟨_, _, rfl, hpos, hmax⟩
    · exact ih hd

/-- What the loop of `readUntilCut` cuts covers a part of the input, with chunks that are as long as
cuts can be. -/
theorem Cuts.covers (h : Cuts gear sha256 cfg x readErr stop o chunks o') (hstop : stop ≤ x.length)
    (hmost : ∀ o, windowCut gear cfg (slice x o stop) ≤ maxChunk) :
    Covers sha256 maxChunk x o chunks o' := by
  induction h with
  | nil o => exact .nil o
  | @cons o _ _ hlt _ _ ih =>
    have hlen : (slice x o stop).length = stop - o := length_slice hstop
    have hne : slice x o stop ≠ [] := List.length_pos_iff.1 (by omega)
    obtain ⟨hpos, hle⟩ := windowCut_bounds gear cfg hne
    exact .cons hpos (hmost o) (by omega) ih

end

/-! ## Between calls -/

/-- A chunker over `x` between two calls of `readUntilCut`, with any errors behind it. -/
structure Holds (x : List UInt8) (c : Chunker) : Prop extends Held x c where
  endsOnce : EndsOnce c.reader
  short : c.bufLen < c.cfg.minChunk

section
variable {x : List UInt8} {c : Chunker} (gear : GearTable) (sha256 : List UInt8 → List UInt8)

/-- **One call of `readUntilCut`** covers a part of the input. If it returns no chunk, it returns
the error of its read, and `io.EOF` only at the end. -/
theorem Holds.readUntilCut (h : Holds x c) (hlim : c.cfg.minChunk ≤ c.cfg.maxChunk)
    (hav : c.cfg.avgChunk ≤ c.cfg.maxChunk) (hfuel : x.length < fuel) :
    ∃ chunks err c', readUntilCut gear sha256 fuel c = .ok ((chunks, err), c') ∧
      c'.cfg = c.cfg ∧ c'.pending = c.pending ∧ Holds x c' ∧
      Covers sha256 c.cfg.maxChunk x c.offset chunks c'.offset ∧
      (chunks = [] → err ≠ none ∧ (err = some .eof → c'.offset = x.length)) := by
  have hshort := h.short
  have hmin := c.cfg.min_pos
  obtain ⟨got, err, chunks, c', hread, hrun, hcfg, hpending, hs, hsum, hcuts, hleft⟩ :=
    h.toHeld.readUntilCut gear sha256 (by omega) hfuel
  obtain ⟨_, _, _, hread', -, -, hfull, hends, -⟩ := readFull_takes c.cfg.maxChunk c.reader
  cases hread.symm.trans hread'
  obtain ⟨honce, heof⟩ := hends h.endsOnce
  refine ⟨chunks, err, c', hrun, hcfg, hpending, ⟨hs, honce, by rw [hcfg]; omega⟩,
    hcuts.covers hs.inside fun _ => windowCut_le_max hav _, ?_⟩
  -- a call that has something in its buffer cuts something
  rintro rfl
  have hsame := hcuts.eq_of_nil
  refine ⟨fun hnone => ?_, fun he => ?_⟩
  · have := hfull.1 hnone
    omega
  · have hall : x.length ≤ c'.offset + c'.bufLen := by
      rw [← List.drop_eq_nil_iff, ← hs.bytes, heof he, List.flatMap_nil]
    have hinside := hs.inside
    rcases hleft with hempty | ⟨hnone, -⟩
    · omega
    · rw [hnone] at he
      cases he

/-- **One call of `NextChunk`** returns the next of the pending chunks or of what it cuts, or an
error; `io.EOF` only at the end. -/
theorem Holds.nextChunk (h : Holds x c) (hlim : c.cfg.minChunk ≤ c.cfg.maxChunk)
    (hav : c.cfg.avgChunk ≤ c.cfg.maxChunk) (hfuel : x.length < fuel) :
    ∃ r c' new, nextChunk gear sha256 fuel c = .ok (r, c') ∧ Holds x c' ∧ c'.cfg = c.cfg ∧
      Covers sha256 c.cfg.maxChunk x c.offset new c'.offset ∧
      ((∃ chunk, r = .ok chunk ∧ c.pending ++ new = chunk :: c'.pending) ∨
        ∃ e, r = .error e ∧ c.pending ++ new = [] ∧ (e = .eof → c'.offset = x.length)) := by
  unfold Go.nextChunk
  cases hp : c.pending with
  | cons chunk pending =>
    refine ⟨_, { c with pending }, [], rfl, ?_, rfl, .nil _, .inl ⟨chunk, rfl, ?_⟩⟩
    · exact ⟨h.withPending pending, h.endsOnce, h.short⟩
    · rw [List.append_nil]
  | nil =>
    obtain ⟨chunks, err, c', hrun, hcfg, hpending, hs, hcov, hnil⟩ :=
      h.readUntilCut gear sha256 hlim hav hfuel
    dsimp only
    rw [hrun]
    cases chunks with
    | nil =>
      obtain ⟨hne, heof⟩ := hnil rfl
      obtain ⟨e, rfl⟩ := Option.ne_none_iff_exists'.1 hne
      exact ⟨_, c', [], rfl, hs, hcfg, hcov, .inr ⟨e, rfl, rfl, fun he => heof (congrArg some he)⟩⟩
    | cons chunk pending =>
      refine ⟨_, { c' with pending }, chunk :: pending, rfl, ?_, hcfg, hcov, .inl ⟨chunk, rfl, rfl⟩⟩
      exact ⟨hs.withPending pending, hs.endsOnce, hs.short⟩

/-- The loop of `ChunkAll` goes on to cover the input. -/
theorem Holds.chunkAllLoop (h : Holds x c) (hlim : c.cfg.minChunk ≤ c.cfg.maxChunk)
    (hav : c.cfg.avgChunk ≤ c.cfg.maxChunk) (hround : x.length < roundFuel)
    (hfuel : c.pending.length + (x.length - c.offset) < fuel)
    (hcov : Covers sha256 c.cfg.maxChunk x 0 (all ++ c.pending) c.offset) :
    ∃ chunks err o, chunkAllLoop gear sha256 roundFuel fuel c all = .ok (chunks, err) ∧
      Covers sha256 c.cfg.maxChunk x 0 chunks o ∧ (err = none → o = x.length) := by
  induction fuel generalizing c all with
  | zero => omega
  | succ fuel ih =>
    obtain ⟨r, c', new, hnext, hs, hcfg, hnew, ⟨chunk, rfl, hpend⟩ | ⟨e, rfl, hpend, heof⟩⟩ :=
      h.nextChunk gear sha256 hlim hav hround
    · have hall : Covers sha256 c'.cfg.maxChunk x 0 (all ++ [chunk] ++ c'.pending) c'.offset := by
        have happ := hcov.append hnew
        rw [List.append_assoc, hpend] at happ
        rwa [hcfg, List.append_assoc]
      have hless : c'.pending.length + (x.length - c'.offset) < fuel := by
        have hlen := congrArg List.length hpend
        rw [List.length_append, List.length_cons] at hlen
        have hcut := hnew.length_le
        have hin := hs.inside
        omega
      rw [Go.chunkAllLoop, hnext]
      exact hcfg ▸ ih hs (hcfg ▸ hlim) (hcfg ▸ hav) hless hall
    · obtain ⟨hnil, rfl⟩ := List.append_eq_nil_iff.1 hpend
      rw [hnil, List.append_nil] at hcov
      have hoff : c.offset = c'.offset := hnew.sum_size
      rw [Go.chunkAllLoop, hnext]
      cases e with
      | eof => exact ⟨all, none, c.offset, rfl, hcov, fun _ => hoff.trans (heof rfl)⟩
      | unexpectedEOF => exact ⟨all, _, c.offset, rfl, hcov, by simp⟩
      | other msg => exact ⟨all, _, c.offset, rfl, hcov, by simp⟩

/-- A new chunker holds nothing yet. -/
theorem holds_newWithConfig {reader : Reader} (cfg : Config) (hx : Delivers reader x) :
    Holds x (newWithConfig reader cfg) :=
  ⟨hx.2 ▸ held_newWithConfig reader cfg, hx.1, cfg.params.min_pos⟩

/-- **`ChunkAll` on a reader that fails** returns chunks from the start of the input, and without an
error only those of all of it. -/
theorem chunkAll_covers (hx : Delivers reader x) (hlim : cfg.params.minChunk ≤ cfg.params.maxChunk)
    (hav : cfg.params.avgChunk ≤ cfg.params.maxChunk) (hfuel : x.length < fuel) :
    ∃ chunks err o, chunkAll gear sha256 fuel (newWithConfig reader cfg) = .ok (chunks, err) ∧
      Covers sha256 cfg.params.maxChunk x 0 chunks o ∧ (err = none → o = x.length) :=
  (holds_newWithConfig cfg hx).chunkAllLoop gear sha256 hlim hav hfuel
    (by show 0 + (x.length - 0) < fuel; omega) (.nil 0)

end

end Aegis.FastCdc.Go
