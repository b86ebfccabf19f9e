import Aegis.FastCdc.Chunking

/-!
# Boundaries without descriptors

`next_boundary` makes the cut of `next_chunk` without hashing it. The two leave the stream standing
at the same bytes with the same offset, as long as `next_chunk` can compute its features
(`Stands.call`), so they can be called in any order: the `i`-th call of either kind answers with the
`i`-th place of the tiling (`Stands.emitted`). `cuts_all` computes no features and always returns.
-/

namespace Aegis.FastCdc

/-- The place of a chunk. -/
def ChunkDescriptor.place {Digest : Type} (d : ChunkDescriptor Digest) : CutPoint :=
  ⟨d.offset, d.length⟩

/-- The place of the first piece of `s`, which starts at `off`. -/
def cutPlace (cfg : Config) (off : Nat) (s : List UInt8) : CutPoint := ⟨off, (cutAt cfg s).1⟩

/-- What a call answers about the bytes `s` at `off`, as far as places go. -/
def boundary (cfg : Config) (off : Nat) (s : List UInt8) : Option CutPoint :=
  if s = [] then none else some (cutPlace cfg off s)

/-- A call on a stream. -/
inductive StreamCall
  | nextChunk
  | nextBoundary

section
variable {Digest : Type} (host : Host Digest)

/-- The place that a call answers with, and the stream it leaves. -/
def StreamCall.run : StreamCall → FastCDCStream → Except Fault (Option CutPoint) × FastCDCStream
  | .nextChunk, st =>
    ((FastCdc.nextChunk host st).1.map (Option.map ChunkDescriptor.place),
      (FastCdc.nextChunk host st).2)
  | .nextBoundary, st => FastCdc.nextBoundary host st

/-- The places that successive calls on one stream answer with. -/
def emitted : List StreamCall → FastCDCStream → List (Except Fault (Option CutPoint))
  | [], _ => []
  | c :: cs, st => (c.run host st).1 :: emitted cs (c.run host st).2

variable {st : FastCDCStream} {s : List UInt8}

/-- **One boundary.** -/
theorem Stands.nextBoundary (h : Stands st s) :
    Answered st s (FastCdc.nextBoundary host st) (.ok (boundary st.cfg st.globalOffset s))
      (st.globalOffset + (cutAt st.cfg s).1) := by
  obtain ⟨st₁, hcfg, hoff, ⟨hr, hf, herr⟩ | ⟨e, hr, hs, herr⟩⟩ := h.refill
  · have hle := cutAt_le st₁.valid s
    rw [Answered, ← hcfg, ← hoff, ← herr]
    rcases eq_or_ne s [] with rfl | hne
    · refine ⟨st₁, rfl, .inr ⟨?_, by simpa using hf.stands, ?_, rfl⟩⟩
      · simp [FastCdc.nextBoundary, hr, hf.buffer_eq_nil_iff.2 rfl, boundary]
      · simp [cutAt, phase1, phase2]
    · have hne' : st₁.buffer ≠ [] := mt hf.buffer_eq_nil_iff.1 hne
      refine ⟨{ st₁ with buffer := st₁.buffer.drop (cutAt st₁.cfg s).1,
                         globalOffset := st₁.globalOffset + (cutAt st₁.cfg s).1 }, rfl,
        .inr ⟨?_, hf.drain _ hle, rfl, rfl⟩⟩
      simp [FastCdc.nextBoundary, hr, hne', hf.cutPoint host, boundary, cutPlace, hne]
  · refine ⟨st₁, hcfg, .inl ⟨e, ?_, hs, hoff, herr⟩⟩
    simp [FastCdc.nextBoundary, hr]

/-- The place of what `next_chunk` answers. -/
theorem map_place_emit (hv : cfg.Valid) (off : Nat) (hf : s ≠ [] → HasFeatures host cfg s) :
    (emit host cfg off s).map (Option.map ChunkDescriptor.place) = .ok (boundary cfg off s) ∧
      offsetAfter host cfg off s = off + (cutAt cfg s).1 := by
  rcases eq_or_ne s [] with rfl | hne
  · simp [emit, boundary, offsetAfter, Except.map]
  · rcases emit_cases host cfg off hne with ⟨-, hemit⟩ | ⟨p, hnot, -⟩
    · have hlen := (cutRule cfg hv).length_take_cut s
      rw [cutRule_cut] at hlen
      rw [offsetAfter, hemit, boundary, if_neg hne]
      refine ⟨?_, rfl⟩
      rw [Except.map, Option.map_some, ChunkDescriptor.place, descriptor, hlen]
      rfl
    · exact absurd (hf hne) hnot

/-- **One call of either kind.** -/
theorem Stands.call (h : Stands st s) (herr : pendingErrors st.reader = [])
    (hf : s ≠ [] → HasFeatures host st.cfg s) (c : StreamCall) :
    ∃ st', c.run host st = (.ok (boundary st.cfg st.globalOffset s), st') ∧ st'.cfg = st.cfg ∧
      Stands st' (s.drop (cutAt st.cfg s).1) ∧
      st'.globalOffset = st.globalOffset + (cutAt st.cfg s).1 ∧ pendingErrors st'.reader = [] := by
  cases c with
  | nextChunk =>
    obtain ⟨st', hcfg, hn, hs, hoff, herr'⟩ := (h.nextChunk host).of_quiet herr
    obtain ⟨hplace, hoff'⟩ := map_place_emit host st.valid st.globalOffset hf
    refine ⟨st', ?_, hcfg, hs, hoff.trans hoff', herr'⟩
    rw [StreamCall.run, hn, hplace]
  | nextBoundary =>
    obtain ⟨st', hcfg, hn, hs, hoff, herr'⟩ := (h.nextBoundary host).of_quiet herr
    exact ⟨st', hn, hcfg, hs, hoff, herr'⟩

/-- **Any calls.** The `i`-th call answers with the `i`-th place of the tiling, and with the end of
the stream behind the last one. -/
theorem Stands.emitted (hv : cfg.Valid) (h : Stands st s) (hcfg : st.cfg = cfg)
    (herr : pendingErrors st.reader = []) (hquiet : Quiet host cfg hv s) (cs : List StreamCall) :
    FastCdc.emitted host cs st = (List.range cs.length).map fun i =>
      .ok ((cutRule cfg hv).tile (cutPlace cfg) st.globalOffset s)[i]? := by
  induction cs generalizing s st with
  | nil => rfl
  | cons c cs ih =>
    have hf : s ≠ [] → HasFeatures host st.cfg s := by
      intro hne
      rw [hcfg]
      exact ((quiet_iff host hv hne).1 hquiet).1
    obtain ⟨st', hrun, hcfg', hs, hoff, herr'⟩ := h.call host herr hf c
    rw [hcfg] at hrun hs hoff
    rw [FastCdc.emitted, hrun, List.length_cons, List.range_succ_eq_map, List.map_cons,
      List.map_map]
    rcases eq_or_ne s [] with rfl | hne
    · rw [List.drop_nil] at hs
      rw [ih hs (hcfg'.trans hcfg) herr' hquiet, boundary, if_pos rfl, CutRule.tile_nil,
        CutRule.tile_nil]
      rfl
    · rw [ih hs (hcfg'.trans hcfg) herr' ((quiet_iff host hv hne).1 hquiet).2, boundary,
        if_neg hne, hoff, (cutRule cfg hv).tile_of_ne _ hne]
      rfl

/-- **`cuts_all` is the tiling.** -/
theorem Stands.cutsAllLoop (hv : cfg.Valid) (h : Stands st s) (hcfg : st.cfg = cfg)
    (herr : pendingErrors st.reader = []) (hfuel : s.length < fuel) (out : List CutPoint) :
    FastCdc.cutsAllLoop host fuel st out =
      some (.ok (out ++ (cutRule cfg hv).tile (cutPlace cfg) st.globalOffset s)) := by
  induction fuel generalizing st s out with
  | zero => omega
  | succ fuel ih =>
    obtain ⟨st', hcfg', hn, hs, hoff, herr'⟩ := (h.nextBoundary host).of_quiet herr
    rw [hcfg] at hn hs hoff
    rw [FastCdc.cutsAllLoop, hn, boundary]
    rcases eq_or_ne s [] with rfl | hne
    · rw [if_pos rfl, CutRule.tile_nil, List.append_nil]
    · have hlt := (cutRule cfg hv).length_drop_lt hne
      rw [cutRule_cut] at hlt
      rw [if_neg hne]
      dsimp only
      rw [ih hs (hcfg'.trans hcfg) herr' (by omega), (cutRule cfg hv).tile_of_ne _ hne, hoff,
        List.append_assoc]
      rfl

end

/-- What `cuts_all` returns over an error-free reader of `x`. -/
theorem cutsAll_eq (host : Host Digest) (hv : cfg.Valid) (hx : Delivers pieces x)
    (hfuel : x.length < fuel) :
    cutsAll host fuel (readerOf pieces) cfg =
      some (.ok ((cutRule cfg hv).tile (cutPlace cfg) 0 x)) := by
  obtain ⟨st, hst, hs, hc, hoff, herr⟩ := stands_withConfig hv hx
  rw [cutsAll, hst]
  show cutsAllLoop host fuel st [] = _
  rw [hs.cutsAllLoop host hv hc herr hfuel, hoff, List.nil_append]

/-- The places of the descriptors are those of the tiling. -/
theorem map_place_descriptors (host : Host Digest) (hv : cfg.Valid) (x : List UInt8) :
    ((cutRule cfg hv).tile (descriptor host cfg) 0 x).map ChunkDescriptor.place =
      (cutRule cfg hv).tile (cutPlace cfg) 0 x :=
  map_tile_descriptor host hv CutPoint.mk x

/-- **Boundaries agree with chunks.** Wherever `chunk_all` returns, `cuts_all` returns the places of
its descriptors, and any sequence of `next_chunk` and `next_boundary` calls on one stream answers
with them one after another and then with the end of the stream. `chunk_all` returns as long as
chunks are below `2^32` bytes. -/
theorem boundaries_of_chunkAll {Digest : Type} (host : Host Digest) (cfg : Config)
    (hcfg : cfg.validate = .ok ()) (x : List UInt8) (pieces : List Delivery)
    (hx : Delivers pieces x) (fuel : Nat) (hfuel : x.length < fuel) :
    (∀ ds, chunkAll host fuel (readerOf pieces) cfg = some (.ok ds) →
      cutsAll host fuel (readerOf pieces) cfg = some (.ok (ds.map ChunkDescriptor.place)) ∧
      ∃ st, withConfig (readerOf pieces) cfg = .ok st ∧ ∀ calls : List StreamCall,
        emitted host calls st = (List.range calls.length).map fun i =>
          .ok (ds.map ChunkDescriptor.place)[i]?) ∧
    (cfg.maxChunk < 2 ^ 32 → ∃ ds, chunkAll host fuel (readerOf pieces) cfg = some (.ok ds)) := by
  have hv := Config.validate_eq_ok_iff.1 hcfg
  constructor
  · intro ds hds
    obtain ⟨hquiet, rfl⟩ := (chunkAll_eq_ok_iff host hv hx hfuel).1 hds
    obtain ⟨st, hst, hs, hc, hoff, herr⟩ := stands_withConfig hv hx
    rw [map_place_descriptors host hv]
    refine ⟨cutsAll_eq host hv hx hfuel, st, hst, fun calls => ?_⟩
    rw [hs.emitted host hv hc herr hquiet, hoff]
  · intro hmax
    exact ⟨_, (chunkAll_eq_ok_iff host hv hx hfuel).2
      ⟨fun r _ => hasFeatures_of_lt host hv hmax r, rfl⟩⟩

/-- Four bytes: a boundary, a chunk, and the end. -/
theorem boundaries_of_chunkAll_tinyConfig :
    ∃ st, withConfig (readerOf tinyPieces) tinyConfig = .ok st ∧
      emitted identityHost [.nextBoundary, .nextChunk, .nextBoundary] st =
        [.ok (some ⟨0, 3⟩), .ok (some ⟨3, 1⟩), .ok none] := by
  obtain ⟨hplaces, hreturns⟩ := boundaries_of_chunkAll identityHost tinyConfig rfl [7, 7, 7, 7]
    tinyPieces delivers_tinyPieces 5 (by decide)
  obtain ⟨ds, hds⟩ := hreturns (by decide)
  obtain ⟨hcuts, st, hst, hcalls⟩ := hplaces ds hds
  have hboth : cutsAll identityHost 5 (readerOf tinyPieces) tinyConfig =
      some (.ok [⟨0, 3⟩, ⟨3, 1⟩]) := by decide +kernel
  rw [hboth, Option.some.injEq, Except.ok.injEq] at hcuts
  refine ⟨st, hst, ?_⟩
  rw [hcalls, ← hcuts]
  rfl

end Aegis.FastCdc
