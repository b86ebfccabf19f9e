import Aegis.FastCdc.Cut
import Aegis.Uuid

/-!
# The Go chunker (`internal/fastcdc/fastcdc.go`)

`Chunker` reads into a buffer of twice `MaxChunk` bytes, cuts as many chunks off it as it holds,
keeps what is left for the next read and queues all but the first chunk. An `io.Reader` is the list
of answers its `Read` calls give, past whose end it answers `io.EOF`; an answer longer than the
slice it is read into is handed out in parts. Slicing the buffer outside its bounds is a run-time
panic, here the error `sliceOutOfRange`. The loops take fuel, and `outOfFuel` is what they answer
when it does not suffice. Offsets are the exact stream positions (`int64` in the source), and the
buffer of `2 * MaxChunk` bytes can be allocated.
-/

namespace Aegis.FastCdc.Go

/-! ## Readers -/

/-- The errors of the path: `io.EOF`, `io.ErrUnexpectedEOF`, and any other a reader answers. -/
inductive Err
  | eof
  | unexpectedEOF
  | other (msg : String)
  deriving DecidableEq, Repr

/-- What a `Read` call answers: bytes, and `nil` or an error. -/
structure Answer where
  bytes : List UInt8
  err : Option Err
  deriving DecidableEq, Repr

/-- An `io.Reader`, as the answers its successive `Read` calls give. -/
abbrev Reader := List Answer

/-- The loop of `io.ReadAtLeast` with a slice of `want` bytes: the bytes read, the error of the last
`Read`, and the reader that is left. -/
def readAtLeastLoop (want : Nat) : Reader → List UInt8 → List UInt8 × Option Err × Reader
  | [], got => if got.length < want then (got, some .eof, []) else (got, none, [])
  | answer :: rest, got =>
    if got.length < want then
      let room := want - got.length
      if answer.bytes.length ≤ room then
        match answer.err with
        | none => readAtLeastLoop want rest (got ++ answer.bytes)
        | some e => (got ++ answer.bytes, some e, rest)
      else
        (got ++ answer.bytes.take room, none,
          { answer with bytes := answer.bytes.drop room } :: rest)
    else (got, none, answer :: rest)

/-- `io.ReadFull` into a slice of `want` bytes. -/
def readFull (want : Nat) (reader : Reader) : List UInt8 × Option Err × Reader :=
  match readAtLeastLoop want reader [] with
  | (got, err, rest) =>
    if want ≤ got.length then (got, none, rest)
    else if 0 < got.length ∧ err = some .eof then (got, some .unexpectedEOF, rest)
    else (got, err, rest)

/-- The reader `byteReader` over a slice. -/
def byteReader (data : List UInt8) : Reader := if data = [] then [] else [⟨data, none⟩]

/-! ## Configuration -/

/-- `Config`. -/
structure Config where
  minChunk : Int
  avgChunk : Int
  maxChunk : Int
  maskS : UInt32
  maskL : UInt32
  deriving DecidableEq, Repr

/-- The constants `MinChunk`, `AvgChunk` and `MaxChunk`. -/
def minChunk : Nat := 64 * 1024

@[inherit_doc minChunk] def avgChunk : Nat := 1 * 1024 * 1024

@[inherit_doc minChunk] def maxChunk : Nat := 4 * 1024 * 1024

/-- The constants `maskS` and `maskL`. -/
def maskS : UInt32 := 0x0003FFFF

@[inherit_doc maskS] def maskL : UInt32 := 0x0007FFFF

/-- `DefaultConfig`. -/
def defaultConfig : Config := { minChunk, avgChunk, maxChunk, maskS, maskL }

/-- The configuration of a `Chunker`: what `NewWithConfig` makes of a `Config`. -/
structure Params where
  minChunk : Nat
  avgChunk : Nat
  maxChunk : Nat
  maskS : UInt32
  maskL : UInt32
  min_pos : 0 < minChunk
  avg_pos : 0 < avgChunk
  max_pos : 0 < maxChunk
  maskS_ne : maskS ≠ 0
  maskL_ne : maskL ≠ 0

/-- A size that is not positive is replaced by its default. -/
def orDefault (n : Int) (default : Nat) : Nat := if n ≤ 0 then default else n.toNat

theorem orDefault_pos (n : Int) {default : Nat} (h : 0 < default) : 0 < orDefault n default := by
  unfold orDefault
  split <;> omega

theorem orDefault_of_pos (h : 0 < n) (default : Nat) : orDefault n default = n.toNat :=
  if_neg (by omega)

/-- A zero mask is replaced by its default. -/
def maskOrDefault (m default : UInt32) : UInt32 := if m = 0 then default else m

theorem maskOrDefault_ne (m : UInt32) {default : UInt32} (h : default ≠ 0) :
    maskOrDefault m default ≠ 0 := by
  unfold maskOrDefault
  split
  · exact h
  · next hm => exact hm

/-- The defaulting at the start of `NewWithConfig`. -/
def Config.params (cfg : Config) : Params where
  minChunk := orDefault cfg.minChunk Go.minChunk
  avgChunk := orDefault cfg.avgChunk Go.avgChunk
  maxChunk := orDefault cfg.maxChunk Go.maxChunk
  maskS := maskOrDefault cfg.maskS Go.maskS
  maskL := maskOrDefault cfg.maskL Go.maskL
  min_pos := orDefault_pos _ (by decide)
  avg_pos := orDefault_pos _ (by decide)
  max_pos := orDefault_pos _ (by decide)
  maskS_ne := maskOrDefault_ne _ (by decide)
  maskL_ne := maskOrDefault_ne _ (by decide)

/-- Positive sizes are taken as they are. -/
theorem Config.params_sizes (cfg : Config) (hmin : 0 < cfg.minChunk)
    (havg : cfg.minChunk ≤ cfg.avgChunk) (hmax : cfg.avgChunk ≤ cfg.maxChunk) :
    (cfg.params.minChunk : Int) = cfg.minChunk ∧ (cfg.params.avgChunk : Int) = cfg.avgChunk ∧
      (cfg.params.maxChunk : Int) = cfg.maxChunk := by
  have hsize : ∀ {n : Int} (default : Nat), 0 < n → (orDefault n default : Int) = n := by
    intro n default hn
    rw [orDefault_of_pos hn, Int.toNat_of_nonneg hn.le]
  exact ⟨hsize _ hmin, hsize _ (by omega), hsize _ (by omega)⟩

/-- One step of the generator of `generateGearTable`. -/
def gearWordStep (s : UInt64) : UInt64 := (s >>> 1) ^^^ (0xA0CC36C9 &&& (0 - (s &&& 1)))

/-- `generateGearTable`: the entry of `b` is the generator's word after `b + 1` steps, cut to 32
bits. -/
def generateGearTable (seed : UInt64) : GearTable := fun b =>
  (gearWordStep^[b.toNat + 1] seed).toUInt32

/-- `gearTable`, generated from `GearSeed`. -/
def gearTable : GearTable := generateGearTable 0x6DCA495895636829

/-! ## The chunker -/

/-- `Chunk`. -/
structure Chunk where
  hashHex : List Char
  offset : Nat
  size : Nat
  deriving DecidableEq, Repr

/-- How a call can end without returning: a slice expression out of range, or the loop's fuel used
up. -/
inductive Stop
  | sliceOutOfRange
  | outOfFuel
  deriving DecidableEq, Repr

/-- `Chunker`, whose `buf` has the length it was made with. -/
structure Chunker where
  reader : Reader
  cfg : Params
  buf : List UInt8
  bufLen : Nat
  offset : Nat
  fingerprint : UInt32
  cutPhase : Bool
  pending : List Chunk

/-- `NewWithConfig`. -/
def newWithConfig (reader : Reader) (cfg : Config) : Chunker where
  reader
  cfg := cfg.params
  buf := List.replicate (cfg.params.maxChunk * 2) 0
  bufLen := 0
  offset := 0
  fingerprint := 0
  cutPhase := false
  pending := []

/-- The slice expression `buf[lo:hi]`. -/
def subslice (buf : List UInt8) (lo hi : Nat) : Except Stop (List UInt8) :=
  if lo ≤ hi ∧ hi ≤ buf.length then .ok (slice buf lo hi) else .error .sliceOutOfRange

/-- `hex.EncodeToString`. -/
def encodeToString (bytes : List UInt8) : List Char :=
  bytes.flatMap fun b => [hexDigit (b.toNat / 16), hexDigit (b.toNat % 16)]

/-- The text of `hex.EncodeToString` is lower-case. -/
theorem isLowerHexDigit_of_mem_encodeToString (h : ch ∈ encodeToString bytes) :
    isLowerHexDigit ch = true := by
  obtain ⟨b, -, hch⟩ := List.mem_flatMap.1 h
  have hb := b.toNat_lt
  rcases List.mem_cons.1 hch with rfl | hch
  · exact isLowerHexDigit_hexDigit (by omega)
  · rw [List.mem_singleton.1 hch]
    exact isLowerHexDigit_hexDigit (Nat.mod_lt _ (by decide))

section
variable (gear : GearTable)

/-- The phase-1 loop of `findCut` at index `i`: the cut if it found one, whether it switched to
phase 2, and the fingerprint it ended with. -/
def phase1Loop (cfg : Params) : List UInt8 → Nat → UInt32 → Option Nat × Bool × UInt32
  | [], _, fingerprint => (none, false, fingerprint)
  | byte :: rest, i, fingerprint =>
    let fingerprint := gearStep gear fingerprint byte
    let currentSize := i + 1
    if cfg.avgChunk ≤ currentSize then (none, true, fingerprint)
    else if cfg.minChunk ≤ currentSize ∧ fingerprint &&& cfg.maskS = 0 then
      (some currentSize, false, fingerprint)
    else phase1Loop cfg rest (i + 1) fingerprint

/-- The phase-2 loop of `findCut` at index `i`: the cut if it found one, and the fingerprint. -/
def phase2Loop (cfg : Params) : List UInt8 → Nat → UInt32 → Option Nat × UInt32
  | [], _, fingerprint => (none, fingerprint)
  | byte :: rest, i, fingerprint =>
    let fingerprint := gearStep gear fingerprint byte
    let currentSize := i + 1
    if cfg.maxChunk ≤ currentSize then (some currentSize, fingerprint)
    else if fingerprint &&& cfg.maskL = 0 then (some currentSize, fingerprint)
    else phase2Loop cfg rest (i + 1) fingerprint

/-- `Chunker.findCut`, called with `dataLen = len(data)`. Phase 2 goes over the same data again,
from its first byte and with the fingerprint phase 1 ended with. -/
def findCut (c : Chunker) (data : List UInt8) : Nat × Chunker :=
  if data = [] then (0, c)
  else match phase1Loop gear c.cfg data 0 c.fingerprint with
    | (some cut, _, fingerprint) => (cut, { c with fingerprint })
    | (none, switched, fingerprint) =>
      let cutPhase := c.cutPhase || switched
      if cutPhase = false then (0, { c with fingerprint })
      else match phase2Loop gear c.cfg data 0 fingerprint with
        | (some cut, fingerprint) => (cut, { c with fingerprint, cutPhase })
        | (none, fingerprint) => (0, { c with fingerprint, cutPhase })

variable (sha256 : List UInt8 → List UInt8)

/-- The loop of `readUntilCut` over the buffer, at `cutPos`. -/
def cutLoop (startOffset : Nat) (readErr : Option Err) : Nat → Chunker → Nat → List Chunk →
    Except Stop (Chunker × Nat × List Chunk)
  | 0, _, _, _ => .error .outOfFuel
  | fuel + 1, c, cutPos, chunks =>
    if cutPos < c.bufLen then
      let remaining := c.bufLen - cutPos
      if remaining < c.cfg.minChunk ∧ readErr = none then .ok (c, cutPos, chunks)
      else do
        let data ← subslice c.buf cutPos c.bufLen
        let r := findCut gear c data
        let cutLen := if r.1 = 0 then remaining else r.1
        let bytes ← subslice c.buf cutPos (cutPos + cutLen)
        let chunk : Chunk :=
          { hashHex := encodeToString (sha256 bytes), offset := startOffset + cutPos,
            size := cutLen }
        cutLoop startOffset readErr fuel
          { r.2 with offset := c.offset + cutLen, fingerprint := 0, cutPhase := false }
          (cutPos + cutLen) (chunks ++ [chunk])
    else .ok (c, cutPos, chunks)

/-- The end of `readUntilCut`: what was cut is shifted out of the buffer, and after a read error
what is left is flushed. -/
def finishCut (startOffset : Nat) (readErr : Option Err) (c : Chunker) (cutPos : Nat)
    (chunks : List Chunk) : Except Stop ((List Chunk × Option Err) × Chunker) := do
  let remaining := c.bufLen - cutPos
  let buf ←
    if 0 < remaining ∧ 0 < cutPos then do
      let rest ← subslice c.buf cutPos c.bufLen
      pure (rest ++ c.buf.drop rest.length)
    else pure c.buf
  if readErr ≠ none ∧ 0 < remaining then do
    let bytes ← subslice buf 0 remaining
    let chunk : Chunk :=
      { hashHex := encodeToString (sha256 bytes), offset := startOffset + cutPos,
        size := remaining }
    pure ((chunks ++ [chunk], none), { c with buf, bufLen := 0, offset := c.offset + remaining })
  else pure ((chunks, readErr), { c with buf, bufLen := remaining })

/-- The read at the start of `readUntilCut`: up to `MaxChunk` bytes go behind those of the
buffer. -/
def fill (c : Chunker) : Except Stop (Option Err × Chunker) := do
  let dst ← subslice c.buf c.bufLen (c.bufLen + c.cfg.maxChunk)
  match readFull dst.length c.reader with
  | (got, readErr, reader) =>
    pure (readErr,
      { c with
        reader
        buf := c.buf.take c.bufLen ++ got ++ c.buf.drop (c.bufLen + got.length)
        bufLen := c.bufLen + got.length })

/-- `Chunker.readUntilCut`. -/
def readUntilCut (fuel : Nat) (c : Chunker) :
    Except Stop ((List Chunk × Option Err) × Chunker) := do
  let startOffset := c.offset
  let (readErr, c) ← fill c
  if c.bufLen = 0 then pure (([], readErr), c)
  else do
    let (c, cutPos, chunks) ← cutLoop gear sha256 startOffset readErr fuel c 0 []
    finishCut sha256 startOffset readErr c cutPos chunks

/-- `Chunker.NextChunk`: a chunk, or an error. -/
def nextChunk (fuel : Nat) (c : Chunker) : Except Stop (Except Err Chunk × Chunker) :=
  match c.pending with
  | chunk :: pending => .ok (.ok chunk, { c with pending })
  | [] => do
    match ← readUntilCut gear sha256 fuel c with
    | (([], none), c) => pure (.error .eof, c)
    | (([], some e), c) => pure (.error e, c)
    | ((chunk :: pending, _), c) => pure (.ok chunk, { c with pending })

/-- The loop of `ChunkAll`: the chunks, and `nil` or the error it stopped at. -/
def chunkAllLoop (roundFuel : Nat) : Nat → Chunker → List Chunk →
    Except Stop (List Chunk × Option Err)
  | 0, _, _ => .error .outOfFuel
  | fuel + 1, c, all => do
    match ← nextChunk gear sha256 roundFuel c with
    | (.error .eof, _) => pure (all, none)
    | (.error e, _) => pure (all, some e)
    | (.ok chunk, c) => chunkAllLoop roundFuel fuel c (all ++ [chunk])

/-- `Chunker.ChunkAll`, with the same fuel for every loop. -/
def chunkAll (fuel : Nat) (c : Chunker) : Except Stop (List Chunk × Option Err) :=
  chunkAllLoop gear sha256 fuel fuel c []

end

/-- `ChunkFromBytes`. -/
def chunkFromBytes (sha256 : List UInt8 → List UInt8) (fuel : Nat) (data : List UInt8) :
    Except Stop (List Chunk × Option Err) :=
  chunkAll gearTable sha256 fuel (newWithConfig (byteReader data) defaultConfig)

end Aegis.FastCdc.Go
