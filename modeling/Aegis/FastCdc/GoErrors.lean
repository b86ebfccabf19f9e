import Aegis.FastCdc.GoFaults

/-!
# Which read errors `ChunkAll` returns

An error that a reader answers comes to `readUntilCut` only as the error of `io.ReadFull`, which
forgets it if the bytes are complete, and `NextChunk` forgets it if there is anything to cut. So
`ChunkAll` returns an error exactly if it gets to a call with nothing pending and nothing in the
buffer, at which the reader fails before it delivers a byte (`Stuck`, `chunkAll_error_iff`). This is
for every reader and every configuration.
-/

namespace Aegis.FastCdc.Go

/-! ## Reads that fail -/

/-- The reader answers an error other than `io.EOF` before it delivers a byte. -/
inductive FailsAtOnce : Reader → Prop
  | silent {rest : Reader} : FailsAtOnce rest → FailsAtOnce (⟨[], none⟩ :: rest)
  | error {e : Err} {rest : Reader} : e ≠ .eof → FailsAtOnce (⟨[], some e⟩ :: rest)

/-- `io.ReadFull` gives what the loop has read. -/
theorem readFull_fst (want : Nat) (reader : Reader) :
    (readFull want reader).1 = (readAtLeastLoop want reader []).1 := by
  unfold readFull
  dsimp only
  split
  · rfl
  · split
    · rfl
    · rfl

section
variable {want : Nat} {rest : Reader}

/-- An answer with a byte gives a byte. -/
theorem readFull_cons_ne_nil (hwant : 0 < want) (b : UInt8) (bs : List UInt8) (err : Option Err) :
    (readFull want (⟨b :: bs, err⟩ :: rest)).1 ≠ [] := by
  rw [readFull_fst, readAtLeastLoop, if_pos (show ([] : List UInt8).length < want from hwant)]
  dsimp only
  split
  · next hfits =>
    cases err with
    | none =>
      obtain ⟨new, err, rest', hloop, -⟩ :=
        @readAtLeastLoop_takes want rest ([] ++ b :: bs) (by simpa using hfits)
      rw [hloop]
      exact List.cons_ne_nil b (bs ++ new)
    | some e => exact List.cons_ne_nil b bs
  · rw [List.nil_append, List.length_nil, Nat.sub_zero, Ne, List.take_eq_nil_iff, not_or]
    exact ⟨Nat.ne_of_gt hwant, List.cons_ne_nil b bs⟩

end

/-- **The reader fails at once** exactly if `io.ReadFull` gives no byte and an error other than
`io.EOF`. -/
theorem failsAtOnce_iff (hwant : 0 < want) (reader : Reader) :
    FailsAtOnce reader ↔
      (readFull want reader).1 = [] ∧ ∃ e, (readFull want reader).2.1 = some e ∧ e ≠ .eof := by
  induction reader with
  | nil =>
    constructor
    · rintro ⟨⟩
    · rintro ⟨-, e, he, hne⟩
      simp [readFull, readAtLeastLoop, hwant, Nat.ne_of_gt hwant] at he
      exact absurd he.symm hne
  | cons answer rest ih =>
    obtain ⟨bytes, err⟩ := answer
    cases bytes with
    | cons b bs =>
      refine ⟨by rintro ⟨⟩, fun h => absurd h.1 (readFull_cons_ne_nil hwant b bs err)⟩
    | nil =>
      cases err with
      | none =>
        have hnext : readFull want (⟨[], none⟩ :: rest) = readFull want rest := by
          simp [readFull, readAtLeastLoop, hwant]
        rw [hnext, ← ih]
        constructor
        · rintro (h | -)
          exact h
        · exact .silent
      | some e =>
        have herr : readFull want (⟨[], some e⟩ :: rest) = ([], some e, rest) := by
          simp [readFull, readAtLeastLoop, hwant, Nat.ne_of_gt hwant]
        rw [herr]
        constructor
        · rintro (- | hne)
          exact ⟨rfl, e, rfl, hne⟩
        · rintro ⟨-, e', he, hne⟩
          cases he
          exact .error hne

/-! ## Between calls -/

/-- A chunker between two calls of `readUntilCut` in a run of `ChunkAll`: there is room for a
read. -/
structure Intact (x : List UInt8) (c : Chunker) : Prop extends Held x c where
  room : c.bufLen = 0 ∨ c.bufLen < c.cfg.minChunk ∧ c.cfg.minChunk ≤ c.cfg.maxChunk

section
variable {x : List UInt8} {c : Chunker}

theorem Intact.bufLen_le (h : Intact x c) : c.bufLen ≤ c.cfg.maxChunk := by
  rcases h.room with hempty | ⟨hshort, hlim⟩
  · omega
  · omega

variable (gear : GearTable) (sha256 : List UInt8 → List UInt8)

/-! ## The error of `ChunkAll` -/

/-- Nothing is pending, nothing is in the buffer, and the reader fails at once. -/
structure Stuck (c : Chunker) : Prop where
  pending : c.pending = []
  empty : c.bufLen = 0
  fails : FailsAtOnce c.reader

/-- **One call of `NextChunk`** returns a chunk, and then the chunker was not stuck and has less to
go through, or an error, which is another than `io.EOF` exactly if the chunker was stuck. -/
theorem Intact.nextChunk (h : Intact x c) (hfuel : x.length < fuel) :
    (∃ chunk c', nextChunk gear sha256 fuel c = .ok (.ok chunk, c') ∧ Intact x c' ∧
        c'.pending.length + (x.length - c'.offset) < c.pending.length + (x.length - c.offset) ∧
        ¬ Stuck c) ∨
      ∃ e c', nextChunk gear sha256 fuel c = .ok (.error e, c') ∧ (e ≠ .eof ↔ Stuck c) := by
  unfold Go.nextChunk
  cases hp : c.pending with
  | cons chunk pending =>
    refine .inl ⟨chunk, { c with pending }, rfl, ⟨h.withPending pending, h.room⟩, ?_, fun hs => ?_⟩
    · simp only [List.length_cons]
      omega
    · cases hp.symm.trans hs.pending
  | nil =>
    obtain ⟨got, readErr, chunks, c', hread, hrun, hcfg, hpending, hheld, hsum, hcuts, hleft⟩ :=
      h.toHeld.readUntilCut gear sha256 h.bufLen_le hfuel
    obtain ⟨_, _, _, hread', -, -, hfull, -⟩ := readFull_takes c.cfg.maxChunk c.reader
    cases hread.symm.trans hread'
    -- a stuck chunker reads nothing, and an error
    have hstuck : Stuck c ↔ c.bufLen = 0 ∧ got = [] ∧ ∃ e, readErr = some e ∧ e ≠ .eof := by
      have hfails := failsAtOnce_iff c.cfg.max_pos c.reader
      rw [hread] at hfails
      exact ⟨fun hs => ⟨hs.empty, hfails.1 hs.fails⟩, fun hs => ⟨hp, hs.1, hfails.2 hs.2⟩⟩
    have hcovers : Covers sha256 (c'.offset + c'.bufLen) x c.offset chunks c'.offset :=
      hcuts.covers hheld.inside fun o =>
        (windowCut_le_length gear c.cfg _).trans (by rw [length_slice hheld.inside]; omega)
    have hcount := hcovers.length_le
    dsimp only
    rw [hrun]
    cases chunks with
    | nil =>
      right
      have hsame := hcuts.eq_of_nil
      cases readErr with
      | none =>
        refine ⟨.eof, c', rfl, fun hne => absurd rfl hne, fun hs => ?_⟩
        obtain ⟨-, -, e, he, -⟩ := hstuck.1 hs
        cases he
      | some e =>
        refine ⟨e, c', rfl, fun hne => hstuck.2 ?_, fun hs => ?_⟩
        · have hempty : c'.bufLen = 0 := hleft.resolve_right fun hl => by cases hl.1
          refine ⟨by omega, List.length_eq_zero_iff.1 (by omega), e, rfl, hne⟩
        · obtain ⟨-, -, e', he, hne⟩ := hstuck.1 hs
          cases he
          exact hne
    | cons chunk pending =>
      rw [List.length_cons] at hcount
      have hinside := hheld.inside
      refine .inl ⟨chunk, { c' with pending }, rfl, ⟨hheld.withPending pending, ?_⟩, ?_,
        fun hs => ?_⟩
      · show c'.bufLen = 0 ∨ c'.bufLen < c'.cfg.minChunk ∧ c'.cfg.minChunk ≤ c'.cfg.maxChunk
        rw [hcfg]
        refine hleft.imp_right fun ⟨hnone, hshort⟩ => ⟨hshort, ?_⟩
        -- with `MinChunk` above `MaxChunk` a full read into an empty buffer is not cut
        have hgot := hfull.1 hnone
        have hcut : ¬ c.bufLen + got.length < c.cfg.minChunk := fun hlt => by
          cases hcuts.nil_of_short (.inr ⟨hnone, by omega⟩)
        rcases h.room with hempty | ⟨-, hlim⟩
        · omega
        · exact hlim
      · show pending.length + (x.length - c'.offset) < 0 + (x.length - c.offset)
        omega
      · obtain ⟨hempty, rfl, -⟩ := hstuck.1 hs
        rw [hempty, List.length_nil] at hsum
        omega

/-- `ChunkAll` at the chunker `c` comes to call `NextChunk` at `c'`. -/
inductive CallsAt (fuel : Nat) : Chunker → Chunker → Prop
  | here (c : Chunker) : CallsAt fuel c c
  | next {c c' c'' : Chunker} {chunk : Chunk} :
    nextChunk gear sha256 fuel c = .ok (.ok chunk, c') → CallsAt fuel c' c'' → CallsAt fuel c c''

variable {gear sha256}

/-- After a call that returned a chunk, the calls are those that follow. -/
theorem CallsAt.of_next (h : CallsAt gear sha256 fuel c c'')
    (hnext : nextChunk gear sha256 fuel c = .ok (.ok chunk, c')) :
    c'' = c ∨ CallsAt gear sha256 fuel c' c'' := by
  cases h with
  | here => exact .inl rfl
  | next hfirst hrest =>
    cases hnext.symm.trans hfirst
    exact .inr hrest

variable (gear sha256)

/-- The loop of `ChunkAll` returns an error exactly if it comes to a stuck chunker. -/
theorem Intact.chunkAllLoop (h : Intact x c) (hround : x.length < roundFuel)
    (hfuel : c.pending.length + (x.length - c.offset) < fuel) (all : List Chunk) :
    ∃ chunks err, chunkAllLoop gear sha256 roundFuel fuel c all = .ok (chunks, err) ∧
      (err ≠ none ↔ ∃ c', CallsAt gear sha256 roundFuel c c' ∧ Stuck c') := by
  induction fuel generalizing c all with
  | zero => omega
  | succ fuel ih =>
    rw [Go.chunkAllLoop]
    rcases h.nextChunk gear sha256 hround with
      ⟨chunk, c', hnext, hs, hless, hfree⟩ | ⟨e, c', hnext, hstuck⟩
    · obtain ⟨chunks, err, hloop, hiff⟩ := ih hs (by omega) (all ++ [chunk])
      refine ⟨chunks, err, ?_, hiff.trans ⟨?_, ?_⟩⟩
      · rw [hnext]
        exact hloop
      · rintro ⟨c'', hcalls, hstuck⟩
        exact ⟨c'', .next hnext hcalls, hstuck⟩
      · rintro ⟨c'', hcalls, hstuck⟩
        rcases hcalls.of_next hnext with rfl | hcalls
        · exact absurd hstuck hfree
        · exact ⟨c'', hcalls, hstuck⟩
    · have hat : (∃ c', CallsAt gear sha256 roundFuel c c' ∧ Stuck c') ↔ e ≠ .eof := by
        rw [hstuck]
        constructor
        · rintro ⟨c'', hcalls, hs⟩
          cases hcalls with
          | here => exact hs
          | next hfirst _ => cases hnext.symm.trans hfirst
        · exact fun hs => ⟨c, .here c, hs⟩
      rw [hnext, hat]
      cases e with
      | eof => exact ⟨all, none, rfl, by simp⟩
      | unexpectedEOF => exact ⟨all, some .unexpectedEOF, rfl, by simp⟩
      | other msg => exact ⟨all, some (.other msg), rfl, by simp⟩

end

/-- **Which read errors surface.** For every configuration and every reader, whatever it answers:
`ChunkAll` returns, and it returns an error exactly if it comes to a call of `NextChunk` with no
chunk pending and an empty buffer at which the reader answers an error other than `io.EOF` before it
delivers a byte. -/
theorem chunkAll_error_iff (gear : GearTable) (sha256 : List UInt8 → List UInt8) (cfg : Config)
    (reader : Reader) (fuel : Nat) (hfuel : (reader.flatMap (·.bytes)).length < fuel) :
    ∃ chunks err, chunkAll gear sha256 fuel (newWithConfig reader cfg) = .ok (chunks, err) ∧
      (err ≠ none ↔ ∃ c, CallsAt gear sha256 fuel (newWithConfig reader cfg) c ∧
        c.pending = [] ∧ c.bufLen = 0 ∧ FailsAtOnce c.reader) := by
  have hintact : Intact _ (newWithConfig reader cfg) := ⟨held_newWithConfig reader cfg, .inl rfl⟩
  obtain ⟨chunks, err, hrun, hiff⟩ := hintact.chunkAllLoop gear sha256 hfuel
    (by simpa [newWithConfig] using hfuel) []
  refine ⟨chunks, err, hrun, hiff.trans (exists_congr fun c => and_congr_right fun _ => ?_)⟩
  exact ⟨fun hs => ⟨hs.pending, hs.empty, hs.fails⟩, fun hs => ⟨hs.1, hs.2.1, hs.2.2⟩⟩

/-- A reader that fails at its first read. -/
theorem chunkAll_error_at_start :
    ∃ chunks err, chunkAll gearTable (fun bytes => bytes) 1
        (newWithConfig [⟨[], some (.other "reset")⟩] smallConfig) = .ok (chunks, err) ∧
      err ≠ none := by
  obtain ⟨chunks, err, hrun, hiff⟩ := chunkAll_error_iff gearTable (fun bytes => bytes) smallConfig
    [⟨[], some (.other "reset")⟩] 1 (by decide)
  exact ⟨chunks, err, hrun, hiff.2 ⟨_, .here _, rfl, rfl, .error nofun⟩⟩

/-- A reader that fails after one byte: `ChunkAll` returns the byte and no error. -/
theorem chunkAll_drops_error :
    ∃ chunks, chunkAll gearTable (fun bytes => bytes) 2
        (newWithConfig [⟨[1], none⟩, ⟨[], some (.other "reset")⟩] smallConfig) =
          .ok (chunks, none) :=
  ⟨[⟨['0', '1'], 0, 1⟩], by decide +kernel⟩

end Aegis.FastCdc.Go
