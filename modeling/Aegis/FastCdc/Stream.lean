import Aegis.FastCdc.Scan

/-!
# The chunking stream (`crates/fastcdc/src/lib.rs`)

`FastCDCStream` buffers what its reader delivers, searches the buffered window for a cut in two
phases, and drains one chunk at a time. A reader is the list of answers its successive `read`
calls give; past the end of the list a `read` answers `Ok(0)`. Reader errors are returned and leave
the stream usable; the two panics of the path (`debug_assert!` of `cut_point`, the `expect` of
`entropy_q8`) are faults of their own. Offsets are the exact stream positions (`u64` in the source,
where no stream of `2^64` bytes is read). What the code takes from outside the crate is a `Host`:
the SHA-256 function, the floating-point quantisation of the entropy, and the SIMD path of the
machine.
-/

namespace Aegis.FastCdc

/-! ## Configuration -/

/-- The error kinds of `std::io` that the path produces or passes on. -/
inductive IoErrorKind
  | invalidInput
  | other
  deriving DecidableEq, Repr

/-- `std::io::Error`: a kind and a text. -/
structure IoError where
  kind : IoErrorKind
  msg : String
  deriving DecidableEq, Repr

/-- `Config`: the sizes, the two masks, the Gear table and the analytics switch. -/
structure Config where
  minChunk : Nat
  avgChunk : Nat
  maxChunk : Nat
  maskS : UInt32
  maskL : UInt32
  gear : GearTable
  computeFeatures : Bool

/-- The sizes of a usable configuration ascend from a positive minimum. -/
def Config.Valid (cfg : Config) : Prop :=
  0 < cfg.minChunk ∧ cfg.minChunk < cfg.avgChunk ∧ cfg.avgChunk ≤ cfg.maxChunk

instance (cfg : Config) : Decidable cfg.Valid := inferInstanceAs (Decidable (_ ∧ _ ∧ _))

/-- `Config::validate`. -/
def Config.validate (cfg : Config) : Except IoError Unit :=
  if cfg.minChunk = 0 ∨ cfg.avgChunk ≤ cfg.minChunk ∨ cfg.maxChunk < cfg.avgChunk then
    .error ⟨.invalidInput, "require min_chunk < avg_chunk <= max_chunk"⟩
  else .ok ()

/-- `validate` accepts exactly the usable configurations. -/
theorem Config.validate_eq_ok_iff {cfg : Config} : cfg.validate = .ok () ↔ cfg.Valid := by
  unfold Config.validate Config.Valid
  split
  · next h => simp only [reduceCtorEq, false_iff]; omega
  · next h => simp only [true_iff]; omega

/-! ## Descriptors -/

/-- `CutPhase`: which search phase produced a cut. -/
inductive CutPhase
  | subAverage
  | postAverage
  | eofTail
  | hardMax
  deriving DecidableEq, Repr

/-- `CutPhase::feature_bit`: `FEATURE_PHASE1`, `FEATURE_PHASE2`, `FEATURE_TRUNCATED` and
`FEATURE_HARD_MAX`, the bits 24 to 27. -/
def CutPhase.featureBit : CutPhase → UInt32
  | .subAverage => (1 : UInt32) <<< 24
  | .postAverage => (1 : UInt32) <<< 25
  | .eofTail => (1 : UInt32) <<< 26
  | .hardMax => (1 : UInt32) <<< 27

/-- `ChunkDescriptor`. -/
structure ChunkDescriptor (Digest : Type) where
  hash : Digest
  offset : Nat
  length : Nat
  contentFeatures : UInt32
  deriving DecidableEq, Repr

/-- `CutPoint`: a chunk's place without its address. -/
structure CutPoint where
  offset : Nat
  length : Nat
  deriving DecidableEq, Repr

/-- The panics on the stream's path: the `debug_assert!(hard_max_pending)` of `cut_point`, and the
`expect("histogram count fits u32")` of `entropy_q8`. -/
inductive Panic
  | hardMaxPending
  | histogramCount
  deriving DecidableEq, Repr

/-- How a call can fail: an I/O error passed on, or a panic. -/
inductive Fault
  | io (e : IoError)
  | panic (p : Panic)
  deriving DecidableEq, Repr

/-- What the crate takes from outside: the SIMD path of the machine, SHA-256, and the `f64`
arithmetic of `entropy_q8` on a histogram and a length. -/
structure Host (Digest : Type) where
  simd : SimdPath
  sha256 : List UInt8 → Digest
  quantize : List Nat → Nat → UInt32

/-- The byte histogram of `entropy_q8`. -/
def histogram (bytes : List UInt8) : List Nat :=
  (List.range 256).map fun b => bytes.count (UInt8.ofNat b)

section
variable {Digest : Type} (host : Host Digest)

/-- `entropy_q8`: the quantised entropy of a payload, or the panic at a count outside `u32`. -/
def entropyQ8 (bytes : List UInt8) : Except Panic UInt32 :=
  if bytes = [] then .ok 0
  else if (histogram bytes).any (2 ^ 32 ≤ ·) then .error .histogramCount
  else .ok (host.quantize (histogram bytes) bytes.length)

/-! ## The stream -/

/-- The length of the staging buffer a `read` is offered, `256 * 1024`. -/
def stagingLen : Nat := 256 * 1024

/-- What a successful `read` delivers: at most the bytes it was offered. -/
structure Delivery where
  bytes : List UInt8
  fits : bytes.length ≤ stagingLen
  deriving DecidableEq

/-- A reader, as the answers its successive `read` calls give. -/
abbrev Reader := List (Except IoError Delivery)

/-- `FastCDCStream`. Its configuration has passed `validate`, and its table is the
configuration's. -/
structure FastCDCStream where
  reader : Reader
  buffer : List UInt8
  globalOffset : Nat
  gearMatrix : GearTable
  cfg : Config
  eof : Bool
  valid : cfg.Valid
  gear_eq : gearMatrix = cfg.gear

/-- `FastCDCStream::with_config`. -/
def withConfig (reader : Reader) (cfg : Config) : Except IoError FastCDCStream :=
  match h : cfg.validate with
  | .error e => .error e
  | .ok () => .ok
    { reader, buffer := [], globalOffset := 0, gearMatrix := cfg.gear, cfg, eof := false
      valid := Config.validate_eq_ok_iff.1 h, gear_eq := rfl }

/-- The loop of `refill`: read until the window is full or the source is exhausted. -/
def refillLoop (maxChunk : Nat) : Reader → List UInt8 → Bool →
    Except IoError Unit × Reader × List UInt8 × Bool
  | reader, buffer, true => (.ok (), reader, buffer, true)
  | [], buffer, false =>
    if buffer.length < maxChunk then (.ok (), [], buffer, true) else (.ok (), [], buffer, false)
  | answer :: rest, buffer, false =>
    if buffer.length < maxChunk then
      match answer with
      | .error e => (.error e, rest, buffer, false)
      | .ok d =>
        if d.bytes.length = 0 then (.ok (), rest, buffer, true)
        else refillLoop maxChunk rest (buffer ++ d.bytes) false
    else (.ok (), answer :: rest, buffer, false)

/-- `FastCDCStream::refill`. -/
def refill (st : FastCDCStream) : Except IoError Unit × FastCDCStream :=
  let r := refillLoop st.cfg.maxChunk st.reader st.buffer st.eof
  (r.1, { st with reader := r.2.1, buffer := r.2.2.1, eof := r.2.2.2 })

/-- The slice `l[a..b]`. -/
def slice (l : List UInt8) (a b : Nat) : List UInt8 := (l.drop a).take (b - a)

/-- `FastCDCStream::cut_point`: the two-phase search over the buffered window. -/
def cutPoint (st : FastCDCStream) : Except Panic (Nat × CutPhase) :=
  let cfgMin := st.cfg.minChunk
  let cap := min st.buffer.length st.cfg.maxChunk
  let hardMaxPending := st.cfg.maxChunk = cap ∧ st.eof = false
  let p1End := min cap st.cfg.avgChunk
  let phase1 :=
    if st.buffer.length > cfgMin ∧ p1End > cfgMin then
      findCut host.simd st.gearMatrix (slice st.buffer cfgMin p1End) st.cfg.maskS
    else none
  let phase2 :=
    if st.buffer.length > cfgMin ∧ cap > st.cfg.avgChunk then
      findCut host.simd st.gearMatrix (slice st.buffer st.cfg.avgChunk cap) st.cfg.maskL
    else none
  match phase1, phase2 with
  | some len, _ => .ok (cfgMin + len, .subAverage)
  | none, some len => .ok (st.cfg.avgChunk + len, .postAverage)
  | none, none =>
    if st.eof then .ok (cap, .eofTail)
    else if hardMaxPending then .ok (cap, .hardMax)
    else .error .hardMaxPending

/-- `content_features` of a payload cut in `phase`. -/
def features (cfg : Config) (payload : List UInt8) (phase : CutPhase) : Except Panic UInt32 :=
  if cfg.computeFeatures then do
    let e ← entropyQ8 host payload
    return e ||| phase.featureBit
  else return phase.featureBit

/-- `FastCDCStream::next_chunk`. -/
def nextChunk (st : FastCDCStream) :
    Except Fault (Option (ChunkDescriptor Digest)) × FastCDCStream :=
  match refill st with
  | (.error e, st) => (.error (.io e), st)
  | (.ok (), st) =>
    if st.buffer = [] then (.ok none, st)
    else match cutPoint host st with
      | .error p => (.error (.panic p), st)
      | .ok (cutLen, phase) =>
        let payload := st.buffer.take cutLen
        let drained := { st with buffer := st.buffer.drop cutLen }
        match features host st.cfg payload phase with
        | .error p => (.error (.panic p), drained)
        | .ok contentFeatures =>
          (.ok (some
            { hash := host.sha256 payload, offset := st.globalOffset, length := payload.length
              contentFeatures }),
          { drained with globalOffset := st.globalOffset + payload.length })

/-- `FastCDCStream::next_boundary`: the same cut without hashing or features. -/
def nextBoundary (st : FastCDCStream) : Except Fault (Option CutPoint) × FastCDCStream :=
  match refill st with
  | (.error e, st) => (.error (.io e), st)
  | (.ok (), st) =>
    if st.buffer = [] then (.ok none, st)
    else match cutPoint host st with
      | .error p => (.error (.panic p), st)
      | .ok (cutLen, _) =>
        (.ok (some { offset := st.globalOffset, length := cutLen }),
          { st with buffer := st.buffer.drop cutLen, globalOffset := st.globalOffset + cutLen })

/-- The loop of `chunk_all`, at most `fuel` rounds of it; `none` when they do not suffice. -/
def chunkAllLoop : Nat → FastCDCStream → List (ChunkDescriptor Digest) →
    Option (Except Fault (List (ChunkDescriptor Digest)))
  | 0, _, _ => none
  | fuel + 1, st, out =>
    match nextChunk host st with
    | (.error e, _) => some (.error e)
    | (.ok none, _) => some (.ok out)
    | (.ok (some d), st) => chunkAllLoop fuel st (out ++ [d])

/-- `chunk_all`. -/
def chunkAll (fuel : Nat) (reader : Reader) (cfg : Config) :
    Option (Except Fault (List (ChunkDescriptor Digest))) :=
  match withConfig reader cfg with
  | .error e => some (.error (.io e))
  | .ok st => chunkAllLoop host fuel st []

/-- The loop of `cuts_all`, at most `fuel` rounds of it. -/
def cutsAllLoop : Nat → FastCDCStream → List CutPoint → Option (Except Fault (List CutPoint))
  | 0, _, _ => none
  | fuel + 1, st, out =>
    match nextBoundary host st with
    | (.error e, _) => some (.error e)
    | (.ok none, _) => some (.ok out)
    | (.ok (some p), st) => cutsAllLoop fuel st (out ++ [p])

/-- `cuts_all`. -/
def cutsAll (fuel : Nat) (reader : Reader) (cfg : Config) :
    Option (Except Fault (List CutPoint)) :=
  match withConfig reader cfg with
  | .error e => some (.error (.io e))
  | .ok st => cutsAllLoop host fuel st []

/-- The results of `n` successive `next_chunk` calls on one stream. -/
def nextChunks : Nat → FastCDCStream → List (Except Fault (Option (ChunkDescriptor Digest)))
  | 0, _ => []
  | n + 1, st => (nextChunk host st).1 :: nextChunks n (nextChunk host st).2

end

end Aegis.FastCdc
