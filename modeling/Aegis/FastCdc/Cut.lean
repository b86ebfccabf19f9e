import Aegis.FastCdc.Stream
import Aegis.Lib.First
import Aegis.Lib.Tile

/-!
# The cut rule, and that the stream follows it

`cutAt` is what one cut is for: a function of the configuration and the bytes that remain, with no
buffer, no reader and no end-of-file flag. A stream *stands at* the bytes `s` when its buffer
followed by what its reader still delivers is `s` (`Stands`). The window `refill` leaves and the
end-of-file flag are then determined by `s` (`Stands.refill`): the flag is up exactly when fewer
than `max_chunk` bytes remain, which is also why the assertion of `cut_point` holds. So a
`next_chunk` call emits the first piece of `s` and leaves a stream that stands at the rest
(`Stands.nextChunk`), however the bytes arrived.
-/

namespace Aegis.FastCdc

/-! ## The rule -/

/-- The phase-1 search over the remaining bytes `s`. -/
def phase1 (cfg : Config) (s : List UInt8) : Option Nat :=
  if s.length > cfg.minChunk then
    findCutScalar cfg.gear
      (slice s cfg.minChunk (min (min s.length cfg.maxChunk) cfg.avgChunk)) cfg.maskS
  else none

/-- The phase-2 search over the remaining bytes `s`. -/
def phase2 (cfg : Config) (s : List UInt8) : Option Nat :=
  if min s.length cfg.maxChunk > cfg.avgChunk then
    findCutScalar cfg.gear (slice s cfg.avgChunk (min s.length cfg.maxChunk)) cfg.maskL
  else none

/-- The length of the first chunk of the remaining bytes `s`, and the phase that cut it. -/
def cutAt (cfg : Config) (s : List UInt8) : Nat × CutPhase :=
  match phase1 cfg s, phase2 cfg s with
  | some len, _ => (cfg.minChunk + len, .subAverage)
  | none, some len => (cfg.avgChunk + len, .postAverage)
  | none, none =>
    (min s.length cfg.maxChunk, if s.length < cfg.maxChunk then .eofTail else .hardMax)

/-- A scan answers the first hit. -/
theorem found_findCutLoop (gear : GearTable) (mask : UInt32) (data : List UInt8) (pos : Nat)
    (fp : UInt32) :
    Found (fun p => Hits gear mask fp data (p - pos)) pos (pos + data.length)
      (findCutLoop gear mask data pos fp) := by
  induction data generalizing pos fp with
  | nil => exact fun p hp hle => absurd hp (Nat.not_lt.2 hle)
  | cons byte rest ih =>
    have hone : Hits gear mask fp (byte :: rest) (pos + 1 - pos) ↔
        gearStep gear fp byte &&& mask = 0 := by
      rw [Nat.add_sub_cancel_left]
      rfl
    simp only [findCutLoop, List.length_cons]
    split
    · next hit => exact ⟨by omega, by omega, hone.2 hit, fun p hp hlt => by omega⟩
    · next hit =>
      refine Found.cons ?_ (mt hone.1 hit) (by omega)
      rw [show pos + (rest.length + 1) = pos + 1 + rest.length by omega]
      refine (ih (pos + 1) _).congr fun p hp _ => ?_
      rw [show p - pos = p - (pos + 1) + 1 by omega]
      rfl

theorem found_findCutScalarFrom (gear : GearTable) (data : List UInt8) (mask fp : UInt32) :
    Found (Hits gear mask fp data) 0 data.length (findCutScalarFrom gear data mask fp) := by
  simpa [findCutScalarFrom] using found_findCutLoop gear mask data 0 fp

/-- A cut lies inside the scanned bytes and is never `0`. -/
theorem findCutScalar_bounds (h : findCutScalar gear data mask = some len) :
    1 ≤ len ∧ len ≤ data.length := by
  have hfound := found_findCutScalarFrom gear data mask 0
  rw [← findCutScalar, h] at hfound
  exact ⟨hfound.1, hfound.2.1⟩

section
variable {cfg : Config}

/-- A slice inside a list has the length of its range. -/
theorem length_slice (hb : b ≤ l.length) : (slice l a b).length = b - a := by
  rw [slice, List.length_take, List.length_drop]
  omega

/-- A slice reads only what lies before its end. -/
theorem slice_take (hn : b ≤ n) : slice (l.take n) a b = slice l a b := by
  unfold slice
  rw [List.drop_take, List.take_take, Nat.min_eq_left (by omega)]

/-- A phase-1 hit lies above the minimum and inside the window. -/
theorem phase1_bounds (h : phase1 cfg s = some len) :
    1 ≤ len ∧ cfg.minChunk + len ≤ min s.length cfg.maxChunk := by
  unfold phase1 at h
  split at h
  · have hb := findCutScalar_bounds h
    rw [length_slice (by omega)] at hb
    omega
  · cases h

/-- A phase-2 hit lies above the average and inside the window. -/
theorem phase2_bounds (h : phase2 cfg s = some len) :
    1 ≤ len ∧ cfg.avgChunk + len ≤ min s.length cfg.maxChunk := by
  unfold phase2 at h
  split at h
  · have hb := findCutScalar_bounds h
    rw [length_slice (by omega)] at hb
    omega
  · cases h

/-- A cut lies above the minimum, or it is the whole window. -/
theorem cutAt_fst_cases (hv : cfg.Valid) (s : List UInt8) :
    (cfg.minChunk < (cutAt cfg s).1 ∧ (cutAt cfg s).1 ≤ min s.length cfg.maxChunk) ∨
      (cutAt cfg s).1 = min s.length cfg.maxChunk := by
  obtain ⟨h0, h1, h2⟩ := hv
  unfold cutAt
  split
  · next len _ h =>
    have := phase1_bounds h
    simp only
    omega
  · next len _ h =>
    have := phase2_bounds h
    simp only
    omega
  · exact .inr rfl

/-- The cut rule of a valid configuration: a cut takes at least one byte and at most what is
there. -/
def cutRule (cfg : Config) (hv : cfg.Valid) : CutRule UInt8 where
  cut s := (cutAt cfg s).1
  pos {s} hs := by
    have hl := List.length_pos_iff.2 hs
    have hm : 0 < cfg.maxChunk := by have := hv; unfold Config.Valid at this; omega
    rcases cutAt_fst_cases hv s with h | h <;> omega
  le s := by rcases cutAt_fst_cases hv s with h | h <;> omega

@[simp] theorem cutRule_cut (hv : cfg.Valid) (s : List UInt8) :
    (cutRule cfg hv).cut s = (cutAt cfg s).1 := rfl

/-- A cut is inside the window. -/
theorem cutAt_le (hv : cfg.Valid) (s : List UInt8) :
    (cutAt cfg s).1 ≤ min s.length cfg.maxChunk := by
  rcases cutAt_fst_cases hv s with h | h <;> omega

end

/-! ## Where a stream stands -/

/-- The bytes a reader still delivers. -/
def undelivered (reader : Reader) : List UInt8 :=
  reader.flatMap fun answer => match answer with
    | .ok d => d.bytes
    | .error _ => []

/-- The errors a reader still answers. -/
def pendingErrors (reader : Reader) : List IoError :=
  reader.filterMap fun answer => match answer with
    | .ok _ => none
    | .error e => some e

@[simp] theorem undelivered_ok (d : Delivery) (rest : Reader) :
    undelivered (.ok d :: rest) = d.bytes ++ undelivered rest := rfl

/-- The part of a stream `refill` works on, standing at the bytes `s`: the buffer and what is
undelivered make up `s`, no delivery is empty, and the end-of-file flag is up only when all of
`s` is buffered and short of a full window. -/
structure Window (maxChunk : Nat) (s : List UInt8) (reader : Reader) (buffer : List UInt8)
    (eof : Bool) : Prop where
  rest : buffer ++ undelivered reader = s
  nonempty : ∀ d, .ok d ∈ reader → d.bytes ≠ []
  atEof : eof = true → undelivered reader = [] ∧ buffer.length < maxChunk

/-- The loop of `refill` keeps the window at `s`. When it succeeds without reaching the end of
file the window is full; when it fails, the error is the reader's next one. -/
theorem Window.refillLoop {maxChunk : Nat} {s : List UInt8} :
    ∀ {reader : Reader} {buffer : List UInt8} {eof : Bool},
      Window maxChunk s reader buffer eof →
      let r := refillLoop maxChunk reader buffer eof
      Window maxChunk s r.2.1 r.2.2.1 r.2.2.2 ∧
        match r.1 with
        | .ok () => (r.2.2.2 = false → maxChunk ≤ r.2.2.1.length) ∧
            pendingErrors r.2.1 = pendingErrors reader
        | .error e => pendingErrors reader = e :: pendingErrors r.2.1
  | reader, buffer, true, hw => by
    unfold FastCdc.refillLoop
    exact ⟨hw, by simp⟩
  | [], buffer, false, hw => by
    unfold FastCdc.refillLoop
    split
    · next hlt => exact ⟨⟨hw.rest, hw.nonempty, fun _ => ⟨rfl, hlt⟩⟩, by simp⟩
    · next hlt => exact ⟨hw, fun _ => not_lt.1 hlt, rfl⟩
  | .error e :: rest, buffer, false, hw => by
    unfold FastCdc.refillLoop
    split
    · exact ⟨⟨hw.rest, fun d hd => hw.nonempty d (.tail _ hd), nofun⟩, rfl⟩
    · next hlt => exact ⟨hw, fun _ => not_lt.1 hlt, rfl⟩
  | .ok d :: rest, buffer, false, hw => by
    have hd : d.bytes.length ≠ 0 := by
      simpa using hw.nonempty d (.head _)
    unfold FastCdc.refillLoop
    split
    · simp only [hd, ↓reduceIte]
      have hw' : Window maxChunk s rest (buffer ++ d.bytes) false := by
        refine ⟨?_, fun d hd => hw.nonempty d (.tail _ hd), nofun⟩
        rw [← hw.rest, undelivered_ok, List.append_assoc]
      exact hw'.refillLoop
    · next hlt => exact ⟨hw, fun _ => not_lt.1 hlt, rfl⟩

/-- A stream stands at the bytes `s`. -/
def Stands (st : FastCDCStream) (s : List UInt8) : Prop :=
  Window st.cfg.maxChunk s st.reader st.buffer st.eof

/-- The window of a stream that stands at `s`, after a successful `refill`: it is the first
`max_chunk` bytes of `s` at least, and the end-of-file flag says whether `s` is shorter. -/
structure Filled (st : FastCDCStream) (s : List UInt8) : Prop where
  stands : Stands st s
  eof_iff : st.eof = true ↔ s.length < st.cfg.maxChunk
  le_length : min s.length st.cfg.maxChunk ≤ st.buffer.length

section
variable {Digest : Type} (host : Host Digest) {st : FastCDCStream} {s : List UInt8}

/-- `refill` on a stream that stands at `s` leaves it standing at `s`, with the window filled or
with the reader's next error. -/
theorem Stands.refill (h : Stands st s) :
    ∃ st', st'.cfg = st.cfg ∧ st'.globalOffset = st.globalOffset ∧
      ((refill st = (.ok (), st') ∧ Filled st' s ∧
          pendingErrors st'.reader = pendingErrors st.reader) ∨
        ∃ e, refill st = (.error e, st') ∧ Stands st' s ∧
          pendingErrors st.reader = e :: pendingErrors st'.reader) := by
  have hr := Window.refillLoop h
  refine ⟨(FastCdc.refill st).2, rfl, rfl, ?_⟩
  unfold FastCdc.refill
  generalize refillLoop st.cfg.maxChunk st.reader st.buffer st.eof = r at hr
  obtain ⟨res, reader, buffer, eof⟩ := r
  obtain ⟨hw, hres⟩ := hr
  dsimp only at hw hres
  cases res with
  | error e => exact .inr ⟨e, rfl, hw, hres⟩
  | ok u =>
    obtain ⟨hfull, herr⟩ := hres
    have hlen := congrArg List.length hw.rest
    rw [List.length_append] at hlen
    refine .inl ⟨rfl, ⟨hw, ?_, ?_⟩, herr⟩
    · -- the flag is up only on a short, fully buffered rest; down, the window is full
      cases eof with
      | true =>
        obtain ⟨hun, hlt⟩ := hw.atEof rfl
        rw [hun, List.length_nil] at hlen
        simp only [true_iff]
        omega
      | false =>
        have := hfull rfl
        simp only [Bool.false_eq_true, false_iff]
        omega
    · cases eof with
      | true =>
        obtain ⟨hun, -⟩ := hw.atEof rfl
        rw [hun, List.length_nil] at hlen
        change min s.length st.cfg.maxChunk ≤ buffer.length
        omega
      | false =>
        have := hfull rfl
        change min s.length st.cfg.maxChunk ≤ buffer.length
        omega

/-- The buffer of a filled window begins like `s`, as far as a cut looks. -/
theorem Filled.take_buffer (h : Filled st s) (hn : n ≤ min s.length st.cfg.maxChunk) :
    st.buffer.take n = s.take n := by
  have hb := h.le_length
  rw [← h.stands.rest, List.take_append_of_le_length (by omega)]

/-- Before its end a slice of a filled window's buffer is a slice of `s`. -/
theorem Filled.slice_buffer (h : Filled st s) (hb : b ≤ min s.length st.cfg.maxChunk) :
    slice st.buffer a b = slice s a b := by
  rw [← slice_take (Nat.le_refl b), h.take_buffer hb, slice_take (Nat.le_refl b)]

/-- The cap of the search is a function of `s`. -/
theorem Filled.cap_eq (h : Filled st s) :
    min st.buffer.length st.cfg.maxChunk = min s.length st.cfg.maxChunk := by
  have hb := h.le_length
  have hlen := congrArg List.length h.stands.rest
  rw [List.length_append] at hlen
  omega

/-- **The search follows the rule.** On a filled window `cut_point` answers the cut of `s`; in
particular its assertion holds. -/
theorem Filled.cutPoint (h : Filled st s) : cutPoint host st = .ok (cutAt st.cfg s) := by
  obtain ⟨h0, h1, h2⟩ := st.valid
  have hcap := h.cap_eq
  have hgt : st.buffer.length > st.cfg.minChunk ↔ s.length > st.cfg.minChunk := by
    constructor <;> intro hlt <;> omega
  have hp1 : (if st.buffer.length > st.cfg.minChunk ∧
        min (min s.length st.cfg.maxChunk) st.cfg.avgChunk > st.cfg.minChunk then
      findCut host.simd st.gearMatrix
        (slice st.buffer st.cfg.minChunk (min (min s.length st.cfg.maxChunk) st.cfg.avgChunk))
        st.cfg.maskS
      else none) = phase1 st.cfg s := by
    rw [h.slice_buffer (by omega), findCut_eq, st.gear_eq]
    refine if_congr ?_ rfl rfl
    constructor <;> intro hlt <;> omega
  have hp2 : (if st.buffer.length > st.cfg.minChunk ∧
        min s.length st.cfg.maxChunk > st.cfg.avgChunk then
      findCut host.simd st.gearMatrix
        (slice st.buffer st.cfg.avgChunk (min s.length st.cfg.maxChunk)) st.cfg.maskL
      else none) = phase2 st.cfg s := by
    rw [h.slice_buffer (by omega), findCut_eq, st.gear_eq]
    refine if_congr ?_ rfl rfl
    constructor <;> intro hlt <;> omega
  simp only [FastCdc.cutPoint, hcap, hp1, hp2]
  unfold cutAt
  cases phase1 st.cfg s with
  | some len => rfl
  | none =>
    cases phase2 st.cfg s with
    | some len => rfl
    | none =>
      cases heof : st.eof with
      | true =>
        have hlt := h.eof_iff.1 heof
        simp [hlt]
      | false =>
        have hlt : ¬ s.length < st.cfg.maxChunk := fun hlt => by
          rw [h.eof_iff.2 hlt] at heof
          cases heof
        have hpend : st.cfg.maxChunk = min s.length st.cfg.maxChunk := by omega
        simp [hlt, ← hpend]

/-- The descriptor of the first piece of `s`, which starts at `off`, or the panic of its
features. -/
def describe (cfg : Config) (off : Nat) (s : List UInt8) :
    Except Panic (ChunkDescriptor Digest) := do
  let payload := s.take (cutAt cfg s).1
  let contentFeatures ← features host cfg payload (cutAt cfg s).2
  return { hash := host.sha256 payload, offset := off, length := payload.length, contentFeatures }

/-- What a `next_chunk` call answers at offset `off` with the bytes `s` ahead. -/
def emit (cfg : Config) (off : Nat) (s : List UInt8) :
    Except Fault (Option (ChunkDescriptor Digest)) :=
  if s = [] then .ok none
  else match describe host cfg off s with
    | .error p => .error (.panic p)
    | .ok d => .ok (some d)

/-- The offset after a `next_chunk` call at `off` with the bytes `s` ahead: a call that panics on
the features has drained the chunk and not counted it. -/
def offsetAfter (cfg : Config) (off : Nat) (s : List UInt8) : Nat :=
  match emit host cfg off s with
  | .error _ => off
  | .ok _ => off + (cutAt cfg s).1

/-- Draining the first piece of `s` leaves a stream that stands at the rest. -/
theorem Filled.drain (h : Filled st s) (off : Nat) (hn : n ≤ min s.length st.cfg.maxChunk) :
    Stands { st with buffer := st.buffer.drop n, globalOffset := off } (s.drop n) := by
  have hb := h.le_length
  refine ⟨?_, h.stands.nonempty, fun heof => ?_⟩
  · rw [← h.stands.rest, List.drop_append_of_le_length (by omega)]
  · obtain ⟨hun, hlt⟩ := h.stands.atEof heof
    refine ⟨hun, lt_of_le_of_lt ?_ hlt⟩
    simp only [List.length_drop]
    omega

/-- Nothing is buffered in a filled window exactly when nothing is left. -/
theorem Filled.buffer_eq_nil_iff (h : Filled st s) : st.buffer = [] ↔ s = [] := by
  obtain ⟨h0, h1, h2⟩ := st.valid
  have hcap := h.cap_eq
  rw [← List.length_eq_zero_iff, ← List.length_eq_zero_iff]
  omega

/-- What comes out of a call on a stream that stands at `s`: it either passes on the reader's next
error and leaves the stream where it stands, or answers `r` for the first piece of `s` and leaves a
stream that stands at the rest, with the offset `off`. -/
def Answered (st : FastCDCStream) (s : List UInt8) (out : Except Fault α × FastCDCStream)
    (r : Except Fault α) (off : Nat) : Prop :=
  ∃ st', st'.cfg = st.cfg ∧
    ((∃ e, out = (.error (.io e), st') ∧ Stands st' s ∧ st'.globalOffset = st.globalOffset ∧
        pendingErrors st.reader = e :: pendingErrors st'.reader) ∨
      (out = (r, st') ∧ Stands st' (s.drop (cutAt st.cfg s).1) ∧ st'.globalOffset = off ∧
        pendingErrors st'.reader = pendingErrors st.reader))

/-- Over a reader with no error to come, it answers. -/
theorem Answered.of_quiet (h : Answered st s out r off) (herr : pendingErrors st.reader = []) :
    ∃ st', st'.cfg = st.cfg ∧ out = (r, st') ∧ Stands st' (s.drop (cutAt st.cfg s).1) ∧
      st'.globalOffset = off ∧ pendingErrors st'.reader = [] := by
  obtain ⟨st', hcfg, ⟨e, -, -, -, he⟩ | ⟨hn, hs, hoff, herr'⟩⟩ := h
  · rw [herr] at he
    cases he
  · exact ⟨st', hcfg, hn, hs, hoff, herr'.trans herr⟩

/-- **One call** of `next_chunk`. -/
theorem Stands.nextChunk (h : Stands st s) :
    Answered st s (nextChunk host st) (emit host st.cfg st.globalOffset s)
      (offsetAfter host st.cfg st.globalOffset s) := by
  obtain ⟨st₁, hcfg, hoff, ⟨hr, hf, herr⟩ | ⟨e, hr, hs, herr⟩⟩ := h.refill
  · have hle := cutAt_le st₁.valid s
    rw [Answered, ← hcfg, ← hoff, ← herr]
    rcases eq_or_ne s [] with rfl | hne
    · refine ⟨st₁, rfl, .inr ⟨?_, by simpa using hf.stands, ?_, rfl⟩⟩
      · simp [FastCdc.nextChunk, hr, hf.buffer_eq_nil_iff.2 rfl, emit]
      · simp [offsetAfter, emit, cutAt, phase1, phase2]
    · have hne' : st₁.buffer ≠ [] := mt hf.buffer_eq_nil_iff.1 hne
      have htake := hf.take_buffer hle
      have hcut := hf.cutPoint host
      cases hfeat : features host st₁.cfg (s.take (cutAt st₁.cfg s).1) (cutAt st₁.cfg s).2 with
      | error p =>
        have hemit : emit host st₁.cfg st₁.globalOffset s = .error (.panic p) := by
          simp [emit, describe, hne, hfeat, bind, Except.bind]
        refine ⟨{ st₁ with buffer := st₁.buffer.drop (cutAt st₁.cfg s).1 }, rfl,
          .inr ⟨?_, hf.drain st₁.globalOffset hle, ?_, rfl⟩⟩
        · simp [FastCdc.nextChunk, hr, hne', hcut, htake, hfeat, hemit]
        · simp [offsetAfter, hemit]
      | ok v =>
        have hemit : emit host st₁.cfg st₁.globalOffset s =
            .ok (some ⟨host.sha256 (s.take (cutAt st₁.cfg s).1), st₁.globalOffset,
              (s.take (cutAt st₁.cfg s).1).length, v⟩) := by
          simp [emit, describe, hne, hfeat, bind, Except.bind, pure, Except.pure]
        refine ⟨{ st₁ with buffer := st₁.buffer.drop (cutAt st₁.cfg s).1,
                           globalOffset := st₁.globalOffset + (cutAt st₁.cfg s).1 }, rfl,
          .inr ⟨?_, hf.drain _ hle, ?_, rfl⟩⟩
        · have hlen : (s.take (cutAt st₁.cfg s).1).length = (cutAt st₁.cfg s).1 := by
            rw [List.length_take]
            omega
          simp [FastCdc.nextChunk, hr, hne', hcut, htake, hfeat, hemit, hlen]
        · simp [offsetAfter, hemit]
  · refine ⟨st₁, hcfg, .inl ⟨e, ?_, hs, hoff, herr⟩⟩
    simp [FastCdc.nextChunk, hr]

end

end Aegis.FastCdc
