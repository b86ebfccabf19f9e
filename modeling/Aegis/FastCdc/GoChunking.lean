import Aegis.FastCdc.Go

/-!
# What the Go chunker returns

A cut of the Go chunker looks at what its buffer holds, and that depends on where the reads fell.
Reads take `MaxChunk` bytes at a time and another is made when less than `MinChunk` bytes are left,
so at offset `o` the buffer reaches to the first multiple of `MaxChunk` that is `MinChunk` bytes
ahead, or to the end of the input (`reach`, `window`). A cut is therefore a function of the offset
and the bytes ahead (`cutFrom`), and `ChunkAll` is the tiling of the input by that rule
(`chunkAll_eq`): the batches, the residue carried over, the queue of pending chunks and the read
errors do not show. That the chunks tile the input, with the sizes allowed, follows
(`chunkAll_tilesExactly`).
-/

namespace Aegis.FastCdc.Go

/-! ## Error-free readers -/

/-- No answer carries an error, save that the last may come with `io.EOF`. -/
def ErrorFree : Reader → Prop
  | [] => True
  | answer :: rest => (answer.err = none ∧ ErrorFree rest) ∨ (answer.err = some .eof ∧ rest = [])

/-- The reader delivers the bytes `s` without an error. -/
def Feeds (reader : Reader) (s : List UInt8) : Prop :=
  ErrorFree reader ∧ reader.flatMap (·.bytes) = s

/-- Only the last answer comes with `io.EOF`. -/
def EndsOnce : Reader → Prop
  | [] => True
  | answer :: rest => (answer.err = some .eof → rest = []) ∧ EndsOnce rest

/-- The loop of `io.ReadAtLeast` takes a part off what is ahead, all of it if it meets the end; an
error-free reader gives it no other error. -/
theorem readAtLeastLoop_takes (hgot : got.length ≤ want) :
    ∃ new err rest, readAtLeastLoop want reader got = (got ++ new, err, rest) ∧
      reader.flatMap (·.bytes) = new ++ rest.flatMap (·.bytes) ∧ (got ++ new).length ≤ want ∧
      (err = none → (got ++ new).length = want) ∧
      (EndsOnce reader → EndsOnce rest ∧ (err = some .eof → rest = [])) ∧
      (ErrorFree reader → ErrorFree rest ∧ ∀ e, err = some e → e = .eof ∧ rest = []) := by
  induction reader generalizing got with
  | nil =>
    rw [readAtLeastLoop]
    split
    · next hlt =>
      refine ⟨[], some .eof, [], by rw [List.append_nil], rfl, ?_, by simp,
        fun h => ⟨h, fun _ => rfl⟩, fun h => ⟨h, fun e he => ?_⟩⟩
      · rwa [List.append_nil]
      · exact ⟨(Option.some.inj he).symm, rfl⟩
    · next hlt =>
      refine ⟨[], none, [], by rw [List.append_nil], rfl, ?_, fun _ => ?_, fun h => ⟨h, nofun⟩,
        fun h => ⟨h, nofun⟩⟩
      · rwa [List.append_nil]
      · rw [List.append_nil]
        omega
  | cons answer rest ih =>
    rw [readAtLeastLoop]
    split
    · next hlt =>
      dsimp only
      split
      · next hfits =>
        have hgot' : (got ++ answer.bytes).length ≤ want := by
          rw [List.length_append]
          omega
        cases herr : answer.err with
        | none =>
          obtain ⟨new, err, rest', hloop, hflat, hle, hfull, hends, hfree⟩ := ih hgot'
          rw [List.append_assoc] at hle hfull
          refine ⟨answer.bytes ++ new, err, rest', ?_, ?_, hle, hfull, fun h => hends h.2,
            fun h => hfree ?_⟩
          · rw [hloop, List.append_assoc]
          · rw [List.flatMap_cons, hflat, List.append_assoc]
          · exact h.elim And.right fun h => absurd (herr.symm.trans h.1) nofun
        | some e =>
          refine ⟨answer.bytes, some e, rest, rfl, rfl, hgot', by simp, fun h => ⟨h.2, ?_⟩,
            fun h => ?_⟩
          · exact fun heof => h.1 (herr.trans heof)
          · obtain ⟨heof, rfl⟩ := h.resolve_left fun h => absurd (herr.symm.trans h.1) nofun
            exact ⟨trivial, fun e' he => ⟨Option.some.inj ((herr.trans he).symm.trans heof), rfl⟩⟩
      · next hlong =>
        -- the answer is longer than the room: the rest of it stays ahead
        refine ⟨answer.bytes.take (want - got.length), none, _, rfl, ?_, ?_, fun _ => ?_,
          fun h => ⟨⟨h.1, h.2⟩, nofun⟩, fun h => ⟨h, nofun⟩⟩
        · rw [List.flatMap_cons, List.flatMap_cons, ← List.append_assoc, List.take_append_drop]
        · rw [List.length_append, List.length_take]
          omega
        · rw [List.length_append, List.length_take]
          omega
    · next hlt =>
      refine ⟨[], none, answer :: rest, by rw [List.append_nil], rfl, ?_, fun _ => ?_,
        fun h => ⟨h, nofun⟩, fun h => ⟨h, nofun⟩⟩
      · rwa [List.append_nil]
      · rw [List.append_nil]
        omega

/-- `io.ReadFull` from any reader: its error is nil exactly if it has all it wants. An error-free
reader is at its end otherwise. -/
theorem readFull_takes (want : Nat) (reader : Reader) :
    ∃ got err rest, readFull want reader = (got, err, rest) ∧
      reader.flatMap (·.bytes) = got ++ rest.flatMap (·.bytes) ∧ got.length ≤ want ∧
      (err = none ↔ got.length = want) ∧
      (EndsOnce reader → EndsOnce rest ∧ (err = some .eof → rest = [])) ∧
      (ErrorFree reader → ErrorFree rest ∧
        (err ≠ none → rest = [] ∧ (got = [] → err = some .eof))) := by
  obtain ⟨got, err, rest, hloop, hflat, hle, hfull, hends, hfree⟩ :=
    @readAtLeastLoop_takes want reader [] (Nat.zero_le want)
  rw [List.nil_append] at hloop hle hfull
  unfold readFull
  rw [hloop]
  dsimp only
  split
  · exact ⟨got, none, rest, rfl, hflat, hle, iff_of_true rfl (by omega),
      fun h => ⟨(hends h).1, nofun⟩, fun h => ⟨(hfree h).1, fun hne => absurd rfl hne⟩⟩
  · next hlt =>
    split
    · next hcut =>
      refine ⟨got, _, rest, rfl, hflat, hle, iff_of_false nofun (by omega),
        fun h => ⟨(hends h).1, nofun⟩, fun h => ⟨(hfree h).1, fun _ => ?_⟩⟩
      exact ⟨((hfree h).2 _ hcut.2).2, fun hnil => absurd hcut.1 (by simp [hnil])⟩
    · refine ⟨got, err, rest, rfl, hflat, hle, ⟨hfull, fun heq => by omega⟩, hends, fun h => ?_⟩
      refine ⟨(hfree h).1, fun hne => ?_⟩
      obtain ⟨e, rfl⟩ := Option.ne_none_iff_exists'.1 hne
      obtain ⟨rfl, hrest⟩ := (hfree h).2 e rfl
      exact ⟨hrest, fun _ => rfl⟩

/-- `io.ReadFull` from an error-free reader of `s`: it reads what it wants or all there is, and its
error is nil exactly in the first case. -/
theorem Feeds.readFull (h : Feeds reader s) (want : Nat) :
    ∃ err rest, readFull want reader = (s.take want, err, rest) ∧ Feeds rest (s.drop want) ∧
      (err = none ↔ want ≤ s.length) ∧ (s = [] → 0 < want → err = some .eof) := by
  obtain ⟨hfree, rfl⟩ := h
  obtain ⟨got, err, rest, hread, hflat, hle, hfull, -, hkeep⟩ := readFull_takes want reader
  obtain ⟨hrest, hend⟩ := hkeep hfree
  rw [hread, hflat]
  have hlen : (got ++ rest.flatMap (·.bytes)).length =
      got.length + (rest.flatMap (·.bytes)).length := List.length_append
  by_cases hnone : err = none
  · have heq := hfull.1 hnone
    refine ⟨err, rest, ?_, ⟨hrest, ?_⟩, iff_of_true hnone (by omega), fun hs hpos => ?_⟩
    · rw [← heq, List.take_left]
    · rw [← heq, List.drop_left]
    · rw [(List.append_eq_nil_iff.1 hs).1] at heq
      exact absurd heq hpos.ne
  · obtain ⟨rfl, heof⟩ := hend hnone
    have hlt : got.length < want := lt_of_le_of_ne hle (mt hfull.2 hnone)
    rw [List.flatMap_nil, List.append_nil, List.take_of_length_le hle,
      List.drop_of_length_le hle]
    exact ⟨err, [], rfl, ⟨trivial, rfl⟩, iff_of_false hnone hlt.not_ge, fun hs _ => heof hs⟩

/-! ## The search -/

section
variable (gear : GearTable) (cfg : Params)

/-- The length `readUntilCut` cuts off a window that it searches with a fresh fingerprint. -/
def windowCut (data : List UInt8) : Nat :=
  match phase1Loop gear cfg data 0 0 with
  | (some cut, _, _) => cut
  | (none, false, _) => data.length
  | (none, true, fingerprint) => ((phase2Loop gear cfg data 0 fingerprint).1).getD data.length

variable {gear cfg}

@[simp] theorem gearFold_nil (fp : UInt32) : gearFold gear fp [] = fp := rfl

/-- The fingerprint one byte on. -/
theorem gearFold_take_succ {data rest : List UInt8} (h : data.drop i = byte :: rest) (fp : UInt32) :
    gearStep gear (gearFold gear fp (data.take i)) byte = gearFold gear fp (data.take (i + 1)) := by
  rw [List.take_add, h, List.take_succ_cons, List.take_zero, gearFold, gearFold, List.foldl_append]
  rfl

theorem drop_succ_of_drop {data rest : List UInt8} (h : data.drop i = byte :: rest) :
    data.drop (i + 1) = rest ∧ i < data.length := by
  refine ⟨?_, ?_⟩
  · rw [← List.drop_drop, h, List.drop_succ_cons, List.drop_zero]
  · by_contra hge
    rw [List.drop_of_length_le (by omega)] at h
    cases h

/-- **Phase 1** answers the first hit from `MinChunk` on and below `AvgChunk`. Without one it has
switched exactly if the data reach `AvgChunk`, and then with the fingerprint of that many bytes. -/
theorem found_phase1Loop (gear : GearTable) (cfg : Params) (fp : UInt32) {data rest : List UInt8}
    {i : Nat} (hrest : data.drop i = rest) (hi : i < cfg.avgChunk) :
    let r := phase1Loop gear cfg rest i (gearFold gear fp (data.take i))
    Found (fun p => cfg.minChunk ≤ p ∧ Hits gear cfg.maskS fp data p) i
        (min data.length (cfg.avgChunk - 1)) r.1 ∧
      (r.1 = none → r.2.1 = decide (cfg.avgChunk ≤ data.length) ∧
        (r.2.1 = true → r.2.2 = gearFold gear fp (data.take cfg.avgChunk))) := by
  induction rest generalizing i with
  | nil =>
    have hlen := List.drop_eq_nil_iff.1 hrest
    refine ⟨fun p hp hle => by omega, fun _ => ⟨?_, nofun⟩⟩
    exact (decide_eq_false (by omega)).symm
  | cons byte rest ih =>
    obtain ⟨hnext, hlt⟩ := drop_succ_of_drop hrest
    simp only [phase1Loop, gearFold_take_succ hrest]
    split
    · next havg =>
      have heq : i + 1 = cfg.avgChunk := by omega
      refine ⟨fun p hp hle => by omega, fun _ => ⟨?_, fun _ => by rw [heq]⟩⟩
      exact (decide_eq_true (by omega)).symm
    · next havg =>
      split
      · next hhit =>
        exact ⟨⟨by omega, by omega, hhit, fun p hp hlt => by omega⟩, nofun⟩
      · next hhit =>
        obtain ⟨hfound, hnone⟩ := ih hnext (by omega)
        exact ⟨hfound.cons hhit (by omega), hnone⟩

/-- **Phase 2** answers the first hit, or `MaxChunk`. -/
theorem found_phase2Loop (gear : GearTable) (cfg : Params) (fp : UInt32)
    (hrest : data.drop i = rest) :
    Found (fun p => cfg.maxChunk ≤ p ∨ Hits gear cfg.maskL fp data p) i data.length
      (phase2Loop gear cfg rest i (gearFold gear fp (data.take i))).1 := by
  induction rest generalizing i with
  | nil =>
    have hlen := List.drop_eq_nil_iff.1 hrest
    exact fun p hp hle => by omega
  | cons byte rest ih =>
    obtain ⟨hnext, hlt⟩ := drop_succ_of_drop hrest
    simp only [phase2Loop, gearFold_take_succ hrest]
    split
    · next hmax => exact ⟨by omega, by omega, .inl hmax, fun p hp hlt => by omega⟩
    · next hmax =>
      split
      · next hhit => exact ⟨by omega, by omega, .inr hhit, fun p hp hlt => by omega⟩
      · next hhit =>
        exact (ih hnext).cons (not_or.2 ⟨hmax, hhit⟩) (by omega)

/-- Where the search of a window stops: at the first hit of phase 1, or else at the window's end if
it does not reach `AvgChunk`, and at the first hit of phase 2 or its ceiling if it does. -/
def StopsAt (gear : GearTable) (cfg : Params) (data : List UInt8) (n : Nat) : Prop :=
  let first := Found (fun p => cfg.minChunk ≤ p ∧ Hits gear cfg.maskS 0 data p) 0
    (min data.length (cfg.avgChunk - 1))
  first (some n) ∨
    first none ∧
      ((data.length < cfg.avgChunk ∧ n = data.length) ∨
        (cfg.avgChunk ≤ data.length ∧
          First (Hits gear cfg.maskL (gearFold gear 0 (data.take cfg.avgChunk)) data) 0
            (min data.length cfg.maxChunk) n))

/-- A window is cut where its search stops. -/
theorem stopsAt_windowCut (gear : GearTable) (cfg : Params) (data : List UInt8) :
    StopsAt gear cfg data (windowCut gear cfg data) := by
  have hfound := found_phase1Loop gear cfg 0 (List.drop_zero : data.drop 0 = data) cfg.avg_pos
  rw [List.take_zero, gearFold_nil] at hfound
  unfold windowCut
  generalize phase1Loop gear cfg data 0 0 = r at hfound
  obtain ⟨cut, switched, fp⟩ := r
  obtain ⟨hfound, hnone⟩ := hfound
  cases cut with
  | some n => exact .inl hfound
  | none =>
    obtain ⟨hswitched, hfp⟩ := hnone rfl
    refine .inr ⟨hfound, ?_⟩
    cases switched with
    | false => exact .inl ⟨by simpa using hswitched, rfl⟩
    | true =>
      have havg : cfg.avgChunk ≤ data.length := by simpa using hswitched
      have hfp' : fp = gearFold gear 0 (data.take cfg.avgChunk) := hfp rfl
      have hsecond := found_phase2Loop gear cfg fp (List.drop_zero : data.drop 0 = data)
      rw [List.take_zero, gearFold_nil] at hsecond
      refine .inr ⟨havg, ?_⟩
      rw [← hfp']
      dsimp only
      have hpos := cfg.avg_pos
      have hmaxpos := cfg.max_pos
      cases hp2 : (phase2Loop gear cfg data 0 fp).1 with
      | none =>
        rw [hp2] at hsecond
        have hshort : data.length < cfg.maxChunk := by
          by_contra hge
          exact hsecond data.length (by omega) le_rfl (.inl (by omega))
        rw [Nat.min_eq_left hshort.le, Option.getD_none]
        exact ⟨by omega, le_rfl, fun p hp hlt => fun hh => hsecond p hp hlt.le (.inr hh),
          fun h => absurd h (lt_irrefl _)⟩
      | some n =>
        rw [hp2] at hsecond
        obtain ⟨hgt, hle, hhit, hbefore⟩ := hsecond
        rw [Option.getD_some]
        have hmax : n ≤ cfg.maxChunk := by
          by_contra hge
          exact hbefore cfg.maxChunk hmaxpos (by omega) (.inl le_rfl)
        refine ⟨hgt, by omega, fun p hp hlt hh => hbefore p hp hlt (.inr hh), fun hlt => ?_⟩
        exact hhit.resolve_left (by omega)

/-- A cut takes no more than the window has. -/
theorem windowCut_le_length (gear : GearTable) (cfg : Params) (data : List UInt8) :
    windowCut gear cfg data ≤ data.length := by
  rcases stopsAt_windowCut gear cfg data with ⟨-, hle, -⟩ | ⟨-, ⟨-, hcut⟩ | ⟨-, hfirst⟩⟩
  · exact hle.trans (Nat.min_le_left _ _)
  · exact hcut.le
  · exact hfirst.le.trans (Nat.min_le_left _ _)

/-- A cut takes at least a byte and no more than the window has. -/
theorem windowCut_bounds (gear : GearTable) (cfg : Params) (h : data ≠ []) :
    0 < windowCut gear cfg data ∧ windowCut gear cfg data ≤ data.length := by
  have hlen := List.length_pos_iff.2 h
  refine ⟨?_, windowCut_le_length gear cfg data⟩
  rcases stopsAt_windowCut gear cfg data with ⟨hgt, -⟩ | ⟨-, ⟨-, hcut⟩ | ⟨-, hfirst⟩⟩
  · exact hgt
  · omega
  · exact hfirst.gt

/-- A cut is no longer than `MaxChunk`. -/
theorem windowCut_le_max (hav : cfg.avgChunk ≤ cfg.maxChunk) (data : List UInt8) :
    windowCut gear cfg data ≤ cfg.maxChunk := by
  rcases stopsAt_windowCut gear cfg data with ⟨hgt, hle, -⟩ | ⟨-, ⟨hlt, hcut⟩ | ⟨-, hfirst⟩⟩
  · omega
  · omega
  · exact hfirst.le.trans (Nat.min_le_right _ _)

/-- `findCut` with a fresh fingerprint answers the cut of the window, and changes only the
fingerprint and the phase. -/
theorem findCut_fresh (gear : GearTable) (hfp : c.fingerprint = 0) (hphase : c.cutPhase = false)
    (h : data ≠ []) :
    (if (findCut gear c data).1 = 0 then data.length else (findCut gear c data).1) =
        windowCut gear c.cfg data ∧
      ∃ fp phase, (findCut gear c data).2 = { c with fingerprint := fp, cutPhase := phase } := by
  have hpos := (windowCut_bounds gear c.cfg h).1
  unfold windowCut at hpos ⊢
  cases hp1 : phase1Loop gear c.cfg data 0 0 with
  | mk cut r =>
    obtain ⟨switched, fp⟩ := r
    rw [hp1] at hpos
    cases cut with
    | some n =>
      have heq : findCut gear c data = (n, { c with fingerprint := fp }) := by
        simp [findCut, h, hfp, hp1]
      rw [heq]
      exact ⟨if_neg (Nat.ne_of_gt hpos), fp, c.cutPhase, rfl⟩
    | none =>
      cases switched with
      | false =>
        have heq : findCut gear c data = (0, { c with fingerprint := fp }) := by
          simp [findCut, h, hfp, hphase, hp1]
        rw [heq]
        exact ⟨rfl, fp, c.cutPhase, rfl⟩
      | true =>
        dsimp only at hpos ⊢
        cases hp2 : phase2Loop gear c.cfg data 0 fp with
        | mk cut fp' =>
          rw [hp2] at hpos
          cases cut with
          | some n =>
            have heq :
                findCut gear c data = (n, { c with fingerprint := fp', cutPhase := true }) := by
              simp [findCut, h, hfp, hp1, hp2]
            rw [heq]
            exact ⟨if_neg (Nat.ne_of_gt hpos), fp', true, rfl⟩
          | none =>
            have heq :
                findCut gear c data = (0, { c with fingerprint := fp', cutPhase := true }) := by
              simp [findCut, h, hfp, hp1, hp2]
            rw [heq]
            exact ⟨rfl, fp', true, rfl⟩

end

/-! ## Windows -/

section
variable (cfg : Params)

/-- How far the input has been read when the chunker cuts at offset `o`, unless it ends before. -/
def reach (o : Nat) : Nat := ((o + cfg.minChunk - 1) / cfg.maxChunk + 1) * cfg.maxChunk

/-- The window searched at offset `o`, of the bytes `s` from there on. -/
def window (o : Nat) (s : List UInt8) : List UInt8 := s.take (reach cfg o - o)

variable {cfg}

/-- The reach is `MinChunk` bytes ahead at least. -/
theorem add_minChunk_le_reach (cfg : Params) (o : Nat) : o + cfg.minChunk ≤ reach cfg o := by
  have h := Nat.lt_mul_div_succ (o + cfg.minChunk - 1) cfg.max_pos
  rw [Nat.mul_comm] at h
  unfold reach
  have := cfg.min_pos
  omega

/-- The reach is the first multiple of `MaxChunk` that is `MinChunk` ahead. -/
theorem reach_eq (h : j * cfg.maxChunk < o + cfg.minChunk)
    (h' : o + cfg.minChunk ≤ (j + 1) * cfg.maxChunk) : reach cfg o = (j + 1) * cfg.maxChunk := by
  unfold reach
  have := cfg.min_pos
  rw [Nat.div_eq_of_lt_le (by omega : j * cfg.maxChunk ≤ _) (by omega)]

theorem window_ne_nil (h : s ≠ []) : window cfg o s ≠ [] := by
  have hreach := add_minChunk_le_reach cfg o
  have := cfg.min_pos
  rw [window, Ne, List.take_eq_nil_iff, not_or]
  exact ⟨by omega, h⟩

end

section
variable (gear : GearTable) (cfg : Params)

/-- The length of the chunk at offset `o`, of the bytes `s` from there on. -/
def cutFrom (o : Nat) (s : List UInt8) : Nat := windowCut gear cfg (window cfg o s)

/-- The cut rule of the Go chunker. -/
def rule : CutRule (UInt8 × Nat) :=
  .positioned (cutFrom gear cfg)
    (fun _ _ hs => (windowCut_bounds gear cfg (window_ne_nil hs)).1) fun o s => by
    refine (windowCut_le_length gear cfg (window cfg o s)).trans ?_
    rw [window, List.length_take]
    exact Nat.min_le_right _ _

@[simp] theorem rule_cut (o : Nat) (s : List UInt8) :
    (rule gear cfg).cut (s.zipIdx o) = cutFrom gear cfg o s :=
  CutRule.positioned_cut _ _ o s

variable (sha256 : List UInt8 → List UInt8)

/-- The chunk at offset `o`, of the positioned bytes `l` from there on. -/
def chunkOf (o : Nat) (l : List (UInt8 × Nat)) : Chunk where
  hashHex := encodeToString (sha256 ((l.map Prod.fst).take ((rule gear cfg).cut l)))
  offset := o
  size := (rule gear cfg).cut l

/-- The chunks of the bytes `s` from the offset `o` on. -/
def chunksFrom (o : Nat) (s : List UInt8) : List Chunk :=
  (rule gear cfg).tile (chunkOf gear cfg sha256) o (s.zipIdx o)

@[simp] theorem chunksFrom_nil (o : Nat) : chunksFrom gear cfg sha256 o [] = [] :=
  CutRule.tile_nil ..

theorem chunksFrom_of_ne (h : s ≠ []) :
    chunksFrom gear cfg sha256 o s =
      ⟨encodeToString (sha256 (s.take (cutFrom gear cfg o s))), o, cutFrom gear cfg o s⟩ ::
        chunksFrom gear cfg sha256 (o + cutFrom gear cfg o s) (s.drop (cutFrom gear cfg o s)) := by
  rw [chunksFrom, CutRule.tile_of_ne _ _ (by simpa using h), chunkOf, rule_cut,
    CutRule.drop_zipIdx, List.zipIdx_map_fst]
  rfl

end

/-! ## The buffer -/

theorem slice_slice (h : b ≤ n) : slice (slice l p (p + n)) a b = slice l (p + a) (p + b) := by
  unfold slice
  rw [Nat.add_sub_cancel_left, List.drop_take, List.take_take, List.drop_drop,
    Nat.min_eq_left (by omega), Nat.add_sub_add_left]

/-- The bytes of `x` from `start` to `stop` are the window wherever the loop of `readUntilCut` may
cut: everywhere after a read error, and with `MinChunk` bytes left otherwise. -/
structure Loaded (cfg : Params) (x : List UInt8) (start : Nat) (readErr : Option Err)
    (stop : Nat) : Prop where
  inside : stop ≤ x.length
  ends : ∀ o, start ≤ o → (readErr = none → o + cfg.minChunk ≤ stop) →
    min x.length (reach cfg o) = stop

section
variable {x buf : List UInt8} {start bufLen : Nat}

/-- Slicing what the buffer holds is in range. -/
theorem subslice_held (hfits : bufLen ≤ buf.length)
    (hheld : buf.take bufLen = slice x start (start + bufLen)) (hab : a ≤ b) (hb : b ≤ bufLen) :
    subslice buf a b = .ok (slice x (start + a) (start + b)) := by
  rw [subslice, if_pos ⟨hab, hb.trans hfits⟩, ← slice_take hb, hheld, slice_slice hb]

end

/-- The chunk of `n` bytes of `x` at offset `o`. -/
def chunkAt (sha256 : List UInt8 → List UInt8) (x : List UInt8) (o n : Nat) : Chunk :=
  ⟨encodeToString (sha256 (slice x o (o + n))), o, n⟩

section
variable (gear : GearTable) (sha256 : List UInt8 → List UInt8)

/-- The loop of `readUntilCut` cuts chunks off `x` from one offset to another, each where the search
of the rest of the buffer stops; the buffer ends at `stop`. -/
inductive Cuts (cfg : Params) (x : List UInt8) (readErr : Option Err) (stop : Nat) :
    Nat → List Chunk → Nat → Prop
  | nil (o : Nat) : Cuts cfg x readErr stop o [] o
  | cons {o o' : Nat} {chunks : List Chunk} : o < stop →
    (readErr = none → o + cfg.minChunk ≤ stop) →
    Cuts cfg x readErr stop (o + windowCut gear cfg (slice x o stop)) chunks o' →
    Cuts cfg x readErr stop o
      (chunkAt sha256 x o (windowCut gear cfg (slice x o stop)) :: chunks) o'

variable {gear sha256} {cfg : Params} {x : List UInt8} {readErr : Option Err} {c : Chunker}
  {start cutPos fuel : Nat} {chunks : List Chunk}

/-- **The loop of `readUntilCut`** cuts until the buffer is used up or, with more input to come,
less than `MinChunk` bytes are left. -/
theorem cutLoop_cuts (hfits : c.bufLen ≤ c.buf.length)
    (hheld : c.buf.take c.bufLen = slice x start (start + c.bufLen))
    (hinside : start + c.bufLen ≤ x.length) (hoff : c.offset = start + cutPos)
    (hfresh : c.fingerprint = 0 ∧ c.cutPhase = false) (hle : cutPos ≤ c.bufLen)
    (hfuel : c.bufLen - cutPos < fuel) :
    ∃ pos new, cutLoop gear sha256 start readErr fuel c cutPos chunks =
        .ok ({ c with offset := start + pos }, pos, chunks ++ new) ∧ pos ≤ c.bufLen ∧
      Cuts gear sha256 c.cfg x readErr (start + c.bufLen) (start + cutPos) new (start + pos) ∧
      (pos = c.bufLen ∨ readErr = none ∧ c.bufLen - pos < c.cfg.minChunk) := by
  induction fuel generalizing c cutPos chunks with
  | zero => omega
  | succ fuel ih =>
    have hstay : c = { c with offset := start + cutPos } := by rw [← hoff]
    by_cases hlt : cutPos < c.bufLen
    · by_cases hstop : c.bufLen - cutPos < c.cfg.minChunk ∧ readErr = none
      · refine ⟨cutPos, [], ?_, hle, .nil _, .inr hstop.symm⟩
        rw [cutLoop, if_pos hlt, if_pos hstop, List.append_nil, ← hstay]
      · have hlen : (slice x (start + cutPos) (start + c.bufLen)).length = c.bufLen - cutPos := by
          rw [length_slice hinside]
          omega
        have hne : slice x (start + cutPos) (start + c.bufLen) ≠ [] := by
          rw [← List.length_pos_iff]
          omega
        obtain ⟨hcut, fp, phase, hc⟩ := findCut_fresh gear hfresh.1 hfresh.2 hne
        obtain ⟨hpos, hin⟩ := windowCut_bounds gear c.cfg hne
        generalize hn : windowCut gear c.cfg (slice x (start + cutPos) (start + c.bufLen)) = n
          at hcut hpos hin
        rw [hlen] at hcut hin
        have hdata := subslice_held hfits hheld hlt.le le_rfl
        have hbytes := subslice_held hfits hheld (Nat.le_add_right cutPos n) (by omega)
        have hnext : cutLoop gear sha256 start readErr (fuel + 1) c cutPos chunks =
            cutLoop gear sha256 start readErr fuel { c with offset := start + (cutPos + n) }
              (cutPos + n) (chunks ++ [chunkAt sha256 x (start + cutPos) n]) := by
          rw [cutLoop, if_pos hlt, if_neg hstop, hdata]
          dsimp only [bind, Except.bind]
          rw [hcut, hc, hbytes]
          dsimp only [chunkAt]
          rw [hoff, ← Nat.add_assoc start, hfresh.1, hfresh.2]
        obtain ⟨pos, new, hrun, hle', hcuts, hend⟩ :=
          @ih { c with offset := start + (cutPos + n) } (cutPos + n)
            (chunks ++ [chunkAt sha256 x (start + cutPos) n]) hfits hheld hinside rfl hfresh
            (by show cutPos + n ≤ c.bufLen; omega) (by show c.bufLen - (cutPos + n) < fuel; omega)
        refine ⟨pos, chunkAt sha256 x (start + cutPos) n :: new, ?_, hle', ?_, hend⟩
        · rw [hnext, hrun, List.append_assoc]
          rfl
        · subst hn
          refine .cons (by omega) (fun hnone => ?_) (Nat.add_assoc start cutPos _ ▸ hcuts)
          have := not_and'.1 hstop hnone
          omega
    · refine ⟨cutPos, [], ?_, hle, .nil _, .inl (by omega)⟩
      rw [cutLoop, if_neg hlt, List.append_nil, ← hstay]

theorem Cuts.eq_of_nil (h : Cuts gear sha256 cfg x readErr stop o [] o') : o = o' := by
  cases h
  rfl

/-- Too few bytes are not cut. -/
theorem Cuts.nil_of_short (h : Cuts gear sha256 cfg x readErr stop o chunks o')
    (hshort : stop ≤ o ∨ readErr = none ∧ stop < o + cfg.minChunk) : chunks = [] := by
  cases h with
  | nil => rfl
  | cons hlt hmin _ =>
    obtain hle | ⟨hnone, hlt'⟩ := hshort
    · omega
    · have := hmin hnone
      omega

/-- In a buffer that is loaded these are the tiling's next chunks. -/
theorem Cuts.chunksFrom_eq (h : Cuts gear sha256 cfg x readErr stop o chunks o')
    (hl : Loaded cfg x start readErr stop) (ho : start ≤ o) :
    chunksFrom gear cfg sha256 o (x.drop o) =
      chunks ++ chunksFrom gear cfg sha256 o' (x.drop o') := by
  induction h with
  | nil o => rfl
  | @cons o o' chunks hlt hmin _ ih =>
    have hinside := hl.inside
    have hne : x.drop o ≠ [] := by
      rw [Ne, List.drop_eq_nil_iff]
      omega
    have hends := hl.ends o ho hmin
    have hwindow : slice x o stop = window cfg o (x.drop o) := by
      rw [slice, Go.window, List.take_eq_take_iff, List.length_drop]
      omega
    rw [hwindow] at ih ⊢
    rw [chunksFrom_of_ne _ _ _ hne, chunkAt, slice, Nat.add_sub_cancel_left, List.drop_drop]
    exact congrArg _ (ih (by omega))

end

/-! ## Between calls -/

/-- A chunker over `x`: it holds the bytes from its offset on, and the reader has the rest. -/
structure Held (x : List UInt8) (c : Chunker) : Prop where
  size : c.buf.length = c.cfg.maxChunk * 2
  fresh : c.fingerprint = 0 ∧ c.cutPhase = false
  held : c.buf.take c.bufLen = slice x c.offset (c.offset + c.bufLen)
  bytes : c.reader.flatMap (·.bytes) = x.drop (c.offset + c.bufLen)
  inside : c.offset + c.bufLen ≤ x.length

/-- A chunker over `x` between two calls of `readUntilCut`, over an error-free reader: it holds less
than `MinChunk` bytes, and what has been read is a multiple of `MaxChunk`, unless everything is
done. -/
structure Stands (x : List UInt8) (c : Chunker) : Prop extends Held x c where
  errorFree : ErrorFree c.reader
  short : c.bufLen < c.cfg.minChunk
  aligned : c.cfg.maxChunk ∣ c.offset + c.bufLen ∨ c.offset = x.length

/-- Less than `MinChunk` bytes are no more than `MaxChunk`, or the first read takes all of `x`. -/
def Roomy (cfg : Params) (x : List UInt8) : Prop :=
  cfg.minChunk ≤ cfg.maxChunk ∨ x.length < cfg.maxChunk

section
variable {x : List UInt8} {c : Chunker}

theorem Held.withPending (h : Held x c) (pending : List Chunk) : Held x { c with pending } :=
  ⟨h.size, h.fresh, h.held, h.bytes, h.inside⟩

/-- What a call leaves in the buffer takes no more than half of it. -/
theorem Stands.bufLen_le (h : Stands x c) (hroom : Roomy c.cfg x) : c.bufLen ≤ c.cfg.maxChunk := by
  have hshort := h.short
  have hinside := h.inside
  rcases hroom with hlim | hlim
  · omega
  · omega

/-- The read of `readUntilCut` with at most half of the buffer in use: what is read goes behind
it. -/
theorem fill_eq (hsize : c.buf.length = c.cfg.maxChunk * 2) (hroom : c.bufLen ≤ c.cfg.maxChunk)
    {got : List UInt8} {readErr : Option Err} {rest : Reader}
    (hread : readFull c.cfg.maxChunk c.reader = (got, readErr, rest)) :
    fill c = .ok (readErr, { c with
      reader := rest
      buf := c.buf.take c.bufLen ++ got ++ c.buf.drop (c.bufLen + got.length)
      bufLen := c.bufLen + got.length }) := by
  have hdst : subslice c.buf c.bufLen (c.bufLen + c.cfg.maxChunk) =
      .ok (slice c.buf c.bufLen (c.bufLen + c.cfg.maxChunk)) := if_pos ⟨by omega, by omega⟩
  have hdlen : (slice c.buf c.bufLen (c.bufLen + c.cfg.maxChunk)).length = c.cfg.maxChunk := by
    rw [length_slice (by omega), Nat.add_sub_cancel_left]
  rw [fill, hdst]
  dsimp only [bind, Except.bind]
  rw [hdlen, hread]
  rfl

/-- The buffer goes on to hold the bytes of `x`. -/
theorem fill_takes (hsize : c.buf.length = c.cfg.maxChunk * 2) (hroom : c.bufLen ≤ c.cfg.maxChunk)
    (hheld : c.buf.take c.bufLen = slice x c.offset (c.offset + c.bufLen))
    (hbytes : c.reader.flatMap (·.bytes) = x.drop (c.offset + c.bufLen))
    (hinside : c.offset + c.bufLen ≤ x.length)
    (hread : readFull c.cfg.maxChunk c.reader = (got, readErr, rest))
    (hflat : c.reader.flatMap (·.bytes) = got ++ rest.flatMap (·.bytes))
    (hle : got.length ≤ c.cfg.maxChunk) :
    ∃ buf bufLen, fill c = .ok (readErr, { c with reader := rest, buf, bufLen }) ∧
      buf.length = c.cfg.maxChunk * 2 ∧ bufLen = c.bufLen + got.length ∧ bufLen ≤ buf.length ∧
      buf.take bufLen = slice x c.offset (c.offset + bufLen) ∧ c.offset + bufLen ≤ x.length ∧
      rest.flatMap (·.bytes) = x.drop (c.offset + bufLen) := by
  have hbuf : (c.buf.take c.bufLen).length = c.bufLen := by
    rw [List.length_take]
    omega
  rw [hbytes] at hflat
  have hgotlen := congrArg List.length hflat
  rw [List.length_append, List.length_drop] at hgotlen
  have hlen : (c.buf.take c.bufLen ++ got ++ c.buf.drop (c.bufLen + got.length)).length =
      c.cfg.maxChunk * 2 := by
    simp only [List.length_append, List.length_drop, hbuf]
    omega
  refine ⟨_, _, fill_eq hsize hroom hread, hlen, rfl, by omega, ?_, by omega, ?_⟩
  · rw [List.take_left' (by rw [List.length_append, hbuf]), hheld, slice, slice,
      Nat.add_sub_cancel_left, Nat.add_sub_cancel_left, List.take_add, List.drop_drop, hflat,
      List.take_left]
  · rw [← Nat.add_assoc, ← List.drop_drop, hflat, List.drop_left]

/-- What was read is what the loop may cut. -/
theorem Stands.loaded (h : Stands x c) (hne : c.offset ≠ x.length)
    (htotal : stop = min x.length (c.offset + c.bufLen + c.cfg.maxChunk))
    (hfull : readErr = none ↔ c.offset + c.bufLen + c.cfg.maxChunk ≤ x.length) :
    Loaded c.cfg x c.offset readErr stop := by
  have hshort := h.short
  have hinside := h.inside
  refine ⟨by omega, fun o ho hmin => ?_⟩
  obtain ⟨j, hj⟩ := h.aligned.resolve_right hne
  rw [Nat.mul_comm] at hj
  have hnext : j * c.cfg.maxChunk < o + c.cfg.minChunk := by omega
  -- the reach goes beyond a multiple of `MaxChunk` that is less than `MinChunk` ahead
  have hge : (j + 1) * c.cfg.maxChunk ≤ reach c.cfg o := by
    refine Nat.mul_le_mul_right _ (Nat.succ_le_succ ?_)
    rw [Nat.le_div_iff_mul_le c.cfg.max_pos]
    omega
  have hmul : (j + 1) * c.cfg.maxChunk = j * c.cfg.maxChunk + c.cfg.maxChunk := Nat.succ_mul ..
  by_cases hnone : readErr = none
  · have hle := hfull.1 hnone
    rw [reach_eq hnext (by have := hmin hnone; omega)]
    omega
  · have hgt := mt hfull.2 hnone
    omega

variable (gear : GearTable) (sha256 : List UInt8 → List UInt8)

/-- The end of `readUntilCut` moves the rest to the front of the buffer; after a read error there is
none to flush. -/
theorem finishCut_eq {start : Nat} {readErr : Option Err} {cutPos : Nat} {chunks : List Chunk}
    (hfits : c.bufLen ≤ c.buf.length)
    (hheld : c.buf.take c.bufLen = slice x start (start + c.bufLen)) (hle : cutPos ≤ c.bufLen)
    (hend : cutPos = c.bufLen ∨ readErr = none) :
    ∃ buf, finishCut sha256 start readErr c cutPos chunks =
        .ok ((chunks, readErr), { c with buf, bufLen := c.bufLen - cutPos }) ∧
      buf.length = c.buf.length ∧
      buf.take (c.bufLen - cutPos) = slice x (start + cutPos) (start + c.bufLen) := by
  have hnoflush : ¬ (readErr ≠ none ∧ 0 < c.bufLen - cutPos) := by
    rintro ⟨hne, hpos⟩
    rcases hend with rfl | hnone
    · omega
    · exact hne hnone
  have hsub := subslice_held hfits hheld hle le_rfl
  unfold finishCut
  dsimp only
  by_cases hshift : 0 < c.bufLen - cutPos ∧ 0 < cutPos
  · have hlen : (slice x (start + cutPos) (start + c.bufLen)).length = c.bufLen - cutPos := by
      have hsize := congrArg List.length hheld
      rw [← slice_slice le_rfl, ← hheld, length_slice (by rw [List.length_take]; omega)]
    refine ⟨slice x (start + cutPos) (start + c.bufLen) ++
      c.buf.drop (slice x (start + cutPos) (start + c.bufLen)).length, ?_, ?_, ?_⟩
    · rw [if_pos hshift, hsub]
      dsimp only [bind, Except.bind, pure, Except.pure]
      rw [if_neg hnoflush]
    · rw [List.length_append, List.length_drop, hlen]
      omega
    · rw [← hlen, List.take_left]
  · refine ⟨c.buf, ?_, rfl, ?_⟩
    · rw [if_neg hshift]
      dsimp only [bind, Except.bind, pure, Except.pure]
      rw [if_neg hnoflush]
    · rcases Nat.eq_zero_or_pos cutPos with rfl | hpos
      · exact hheld
      · have hall : c.bufLen - cutPos = 0 := by
          by_contra hne
          exact hshift ⟨by omega, hpos⟩
        rw [hall, List.take_zero, show c.bufLen = cutPos by omega, slice, Nat.sub_self,
          List.take_zero]

variable {gear sha256}

/-- `readUntilCut` after its read: it cuts, and keeps the rest at the front of the buffer. -/
theorem readUntilCut_of_fill {reader : Reader} {buf : List UInt8} {bufLen fuel : Nat}
    {readErr : Option Err} (hfill : fill c = .ok (readErr, { c with reader, buf, bufLen }))
    (hfits : bufLen ≤ buf.length) (hheld : buf.take bufLen = slice x c.offset (c.offset + bufLen))
    (hinside : c.offset + bufLen ≤ x.length) (hfresh : c.fingerprint = 0 ∧ c.cutPhase = false)
    (hfuel : bufLen < fuel) :
    ∃ chunks buf' pos, readUntilCut gear sha256 fuel c = .ok ((chunks, readErr),
        { c with reader, buf := buf', bufLen := bufLen - pos, offset := c.offset + pos }) ∧
      buf'.length = buf.length ∧ pos ≤ bufLen ∧
      buf'.take (bufLen - pos) = slice x (c.offset + pos) (c.offset + pos + (bufLen - pos)) ∧
      Cuts gear sha256 c.cfg x readErr (c.offset + bufLen) c.offset chunks (c.offset + pos) ∧
      (pos = bufLen ∨ readErr = none ∧ bufLen - pos < c.cfg.minChunk) := by
  unfold readUntilCut
  rw [hfill]
  dsimp only [bind, Except.bind]
  rcases Nat.eq_zero_or_pos bufLen with rfl | hpos
  · rw [if_pos rfl]
    exact ⟨[], buf, 0, rfl, rfl, le_rfl, hheld, .nil _, .inl rfl⟩
  · rw [if_neg (by omega)]
    obtain ⟨pos, new, hrun, hle, hcuts, hend⟩ :=
      @cutLoop_cuts gear sha256 x readErr { c with reader, buf, bufLen } c.offset 0 fuel [] hfits
        hheld hinside rfl hfresh (Nat.zero_le _) hfuel
    rw [hrun]
    dsimp only at hle hcuts hend ⊢
    obtain ⟨buf', hfin, hlen, htake⟩ :=
      @finishCut_eq x { c with reader, buf, bufLen, offset := c.offset + pos } sha256 c.offset
        readErr pos ([] ++ new) hfits hheld hle (hend.imp_right And.left)
    rw [hfin]
    refine ⟨new, buf', pos, rfl, hlen, hle, ?_, hcuts, hend⟩
    rw [Nat.add_assoc, Nat.add_sub_cancel' hle]
    exact htake

variable (gear sha256)

/-- **One call of `readUntilCut`** takes what `io.ReadFull` gives and returns its error. It leaves
bytes in the buffer only after a full read, less than `MinChunk` of them. -/
theorem Held.readUntilCut (h : Held x c) (hroom : c.bufLen ≤ c.cfg.maxChunk)
    (hfuel : x.length < fuel) :
    ∃ got err chunks c', readFull c.cfg.maxChunk c.reader = (got, err, c'.reader) ∧
      readUntilCut gear sha256 fuel c = .ok ((chunks, err), c') ∧ c'.cfg = c.cfg ∧
      c'.pending = c.pending ∧ Held x c' ∧
      c'.offset + c'.bufLen = c.offset + (c.bufLen + got.length) ∧
      Cuts gear sha256 c.cfg x err (c'.offset + c'.bufLen) c.offset chunks c'.offset ∧
      (c'.bufLen = 0 ∨ err = none ∧ c'.bufLen < c.cfg.minChunk) := by
  obtain ⟨got, err, rest, hread, hflat, hle, -⟩ := readFull_takes c.cfg.maxChunk c.reader
  obtain ⟨buf, bufLen, hfill, hsize, hlen, hfits, hheld, hinside, hrest⟩ :=
    fill_takes h.size hroom h.held h.bytes h.inside hread hflat hle
  obtain ⟨chunks, buf', pos, hrun, hlen', hpos, htake, hcuts, hend⟩ :=
    @readUntilCut_of_fill x c gear sha256 _ _ _ _ _ hfill hfits hheld hinside h.fresh
      (show bufLen < fuel by omega)
  have hsum : c.offset + pos + (bufLen - pos) = c.offset + bufLen := by omega
  refine ⟨got, err, chunks, _, hread, hrun, rfl, rfl,
    ⟨hlen'.trans hsize, h.fresh, htake, ?_, ?_⟩, hlen ▸ hsum, ?_, ?_⟩
  · rw [hsum]
    exact hrest
  · rw [hsum]
    exact hinside
  · rw [hsum]
    exact hcuts
  · exact hend.imp_left fun heq => by rw [heq, Nat.sub_self]

/-- **One call of `readUntilCut`** gives the tiling's next chunks, at least one if any is left. -/
theorem Stands.readUntilCut (h : Stands x c) (hroom : Roomy c.cfg x) (hfuel : x.length < fuel) :
    ∃ chunks err c', readUntilCut gear sha256 fuel c = .ok ((chunks, err), c') ∧
      c'.cfg = c.cfg ∧ c'.pending = c.pending ∧ Stands x c' ∧
      chunksFrom gear c.cfg sha256 c.offset (x.drop c.offset) =
        chunks ++ chunksFrom gear c.cfg sha256 c'.offset (x.drop c'.offset) ∧
      (chunks = [] → x.drop c.offset = [] ∧ err = some .eof) := by
  have hinside := h.inside
  have hmin := c.cfg.min_pos
  have hmaxpos := c.cfg.max_pos
  obtain ⟨got, err, chunks, c', hread, hrun, hcfg, hpending, hs, hsum, hcuts, hleft⟩ :=
    h.toHeld.readUntilCut gear sha256 (h.bufLen_le hroom) hfuel
  obtain ⟨_, _, hread', hfeeds, hfull, heof⟩ :=
    Feeds.readFull ⟨h.errorFree, h.bytes⟩ c.cfg.maxChunk
  cases hread.symm.trans hread'
  rw [List.length_take, List.length_drop] at hsum
  rw [List.length_drop, Nat.le_sub_iff_add_le' hinside] at hfull
  have htotal : c'.offset + c'.bufLen = min x.length (c.offset + c.bufLen + c.cfg.maxChunk) := by
    omega
  refine ⟨chunks, err, c', hrun, hcfg, hpending, ⟨hs, hfeeds.1, by rw [hcfg]; omega, ?_⟩, ?_, ?_⟩
  · rw [hcfg]
    by_cases hall : c'.offset = x.length
    · exact .inr hall
    · -- otherwise the read was full
      have hnone : err = none := by
        by_contra hne
        have := mt hfull.2 hne
        have := hleft.resolve_right fun h => hne h.1
        omega
      have hle := hfull.1 hnone
      rw [htotal, Nat.min_eq_right hle]
      exact .inl (Nat.dvd_add (h.aligned.resolve_right (by omega)) (Nat.dvd_refl _))
  · rcases eq_or_ne c.offset x.length with hdone | hne
    · obtain rfl := hcuts.nil_of_short (.inl (by omega))
      rw [← hcuts.eq_of_nil]
      rfl
    · exact hcuts.chunksFrom_eq (h.loaded hne htotal hfull) le_rfl
  · -- a call that reads something cuts something
    rintro rfl
    have hsame := hcuts.eq_of_nil
    have hdone : c.offset = x.length := by
      by_contra hne
      rcases hleft with heq | ⟨hnone, hlt⟩
      · omega
      · have := hfull.1 hnone
        rcases hroom with hlim | hlim
        · omega
        · omega
    exact ⟨List.drop_of_length_le hdone.ge, heof (List.drop_of_length_le (by omega)) hmaxpos⟩

/-! ## `ChunkAll` -/

/-- What a chunker over `x` has yet to return: the pending chunks and the chunks ahead. -/
def ahead (x : List UInt8) (c : Chunker) : List Chunk :=
  c.pending ++ chunksFrom gear c.cfg sha256 c.offset (x.drop c.offset)

/-- **One call of `NextChunk`** returns the first chunk ahead, or `io.EOF` if there is none, and
then there is none after the call. -/
theorem Stands.nextChunk (h : Stands x c) (hroom : Roomy c.cfg x) (hfuel : x.length < fuel) :
    ∃ c', Stands x c' ∧ c'.cfg = c.cfg ∧
      ((ahead gear sha256 x c = [] ∧ ahead gear sha256 x c' = [] ∧
          nextChunk gear sha256 fuel c = .ok (.error .eof, c')) ∨
        ∃ chunk, ahead gear sha256 x c = chunk :: ahead gear sha256 x c' ∧
          nextChunk gear sha256 fuel c = .ok (.ok chunk, c')) := by
  unfold Go.nextChunk ahead
  cases hp : c.pending with
  | cons chunk pending =>
    refine ⟨{ c with pending }, ?_, rfl, .inr ⟨chunk, rfl, rfl⟩⟩
    exact ⟨h.withPending pending, h.errorFree, h.short, h.aligned⟩
  | nil =>
    obtain ⟨chunks, err, c', hrun, hcfg, hpending, hs, htile, hnil⟩ :=
      h.readUntilCut gear sha256 hroom hfuel
    rw [hp] at hpending
    dsimp only
    rw [hrun, htile]
    cases chunks with
    | nil =>
      obtain ⟨hdone, rfl⟩ := hnil rfl
      have hnone : chunksFrom gear c.cfg sha256 c'.offset (x.drop c'.offset) = [] := by
        rw [hdone, chunksFrom_nil] at htile
        exact htile.symm
      refine ⟨c', hs, hcfg, .inl ⟨hnone, ?_, rfl⟩⟩
      rw [hpending, hcfg, hnone]
      rfl
    | cons chunk pending =>
      refine ⟨{ c' with pending }, ?_, hcfg, .inr ⟨chunk, ?_, rfl⟩⟩
      · exact ⟨hs.withPending pending, hs.errorFree, hs.short, hs.aligned⟩
      · show _ = chunk :: (pending ++ chunksFrom gear c'.cfg sha256 c'.offset (x.drop c'.offset))
        rw [hcfg]
        rfl

/-- The loop of `ChunkAll` collects what is ahead. -/
theorem Stands.chunkAllLoop (h : Stands x c) (hroom : Roomy c.cfg x) (hround : x.length < roundFuel)
    (hfuel : (ahead gear sha256 x c).length < fuel) (all : List Chunk) :
    chunkAllLoop gear sha256 roundFuel fuel c all = .ok (all ++ ahead gear sha256 x c, none) := by
  induction fuel generalizing c all with
  | zero => omega
  | succ fuel ih =>
    obtain ⟨c', hs, hcfg, ⟨hnil, -, hnext⟩ | ⟨chunk, hcons, hnext⟩⟩ :=
      h.nextChunk gear sha256 hroom hround
    · rw [Go.chunkAllLoop, hnext, hnil, List.append_nil]
      rfl
    · rw [hcons, List.length_cons] at hfuel
      rw [Go.chunkAllLoop, hnext, hcons]
      refine (ih hs (hcfg ▸ hroom) (by omega) (all ++ [chunk])).trans ?_
      rw [List.append_assoc]
      rfl

/-- A new chunker holds nothing, and the reader has all. -/
theorem held_newWithConfig (reader : Reader) (cfg : Config) :
    Held (reader.flatMap (·.bytes)) (newWithConfig reader cfg) where
  size := List.length_replicate
  fresh := ⟨rfl, rfl⟩
  held := by simp [newWithConfig, slice]
  bytes := rfl
  inside := Nat.zero_le _

/-- A new chunker stands at the start of what its reader delivers. -/
theorem stands_newWithConfig {reader : Reader} (cfg : Config) (hx : Feeds reader x) :
    Stands x (newWithConfig reader cfg) :=
  ⟨hx.2 ▸ held_newWithConfig reader cfg, hx.1, cfg.params.min_pos, .inl (Nat.dvd_zero _)⟩

/-- **`ChunkAll` is the tiling of its input** by the rule of the Go chunker. -/
theorem chunkAll_eq (hx : Feeds reader x) (hroom : Roomy cfg.params x) (hfuel : x.length < fuel) :
    chunkAll gear sha256 fuel (newWithConfig reader cfg) =
      .ok (chunksFrom gear cfg.params sha256 0 x, none) := by
  have hlen := (rule gear cfg.params).length_tile_le (chunkOf gear cfg.params sha256) 0 x.zipIdx
  rw [List.length_zipIdx] at hlen
  exact (stands_newWithConfig cfg hx).chunkAllLoop gear sha256 hroom hfuel (hlen.trans_lt hfuel) []

end

/-! ## The chunks tile the input -/

/-- A list of chunks tiles `x`: contiguous from `0`, covering `x`, each addressed by the lower-case
hexadecimal hash of its own bytes, and no chunk empty or longer than `maxChunk`. -/
structure TilesExactly (sha256 : List UInt8 → List UInt8) (maxChunk : Int) (x : List UInt8)
    (chunks : List Chunk) : Prop where
  first : ∀ d ∈ chunks.head?, d.offset = 0
  next : chunks.IsChain fun d e => e.offset = d.offset + d.size
  total : (chunks.map (·.size)).sum = x.length
  hash : ∀ d ∈ chunks,
    d.hashHex = encodeToString (sha256 (slice x d.offset (d.offset + d.size))) ∧
      ∀ ch ∈ d.hashHex, isLowerHexDigit ch = true
  bounds : ∀ d ∈ chunks, 1 ≤ d.size ∧ d.size ≤ maxChunk

/-- The chunks of the tiling of `x` take all of it. -/
theorem sum_size_chunksFrom (gear : GearTable) (cfg : Params) (sha256 : List UInt8 → List UInt8)
    (x : List UInt8) : ((chunksFrom gear cfg sha256 0 x).map Chunk.size).sum = x.length :=
  ((rule gear cfg).sum_map_tile (chunkOf gear cfg sha256) (fun _ _ => rfl) 0 _).trans
    List.length_zipIdx

/-- The chunks of the tiling of `x` tile `x`. -/
theorem tilesExactly_chunksFrom (gear : GearTable) (sha256 : List UInt8 → List UInt8)
    (hav : cfg.avgChunk ≤ cfg.maxChunk) (x : List UInt8) :
    TilesExactly sha256 cfg.maxChunk x (chunksFrom gear cfg sha256 0 x) := by
  refine ⟨?_, ?_, sum_size_chunksFrom gear cfg sha256 x, ?_, ?_⟩
  · intro d hd
    rw [(rule gear cfg).head?_tile _ hd]
    rfl
  · exact (rule gear cfg).isChain_tile _ (fun _ _ => rfl) 0 _
  · intro d hd
    obtain ⟨n, -, rfl⟩ := (rule gear cfg).exists_of_mem_tile _ hd
    refine ⟨?_, fun ch hch => isLowerHexDigit_of_mem_encodeToString hch⟩
    simp only [chunkOf, CutRule.drop_zipIdx, Nat.zero_add, rule_cut, List.zipIdx_map_fst, slice,
      Nat.add_sub_cancel_left]
  · intro d hd
    obtain ⟨n, hne, rfl⟩ := (rule gear cfg).exists_of_mem_tile _ hd
    refine ⟨(rule gear cfg).pos hne, ?_⟩
    simp only [chunkOf, CutRule.drop_zipIdx, Nat.zero_add, rule_cut, Nat.cast_le]
    exact windowCut_le_max hav _

/-- **The Go chunker tiles its input.** For every byte string `x`, every reader that delivers it
without an error and every configuration with `0 < MinChunk ≤ AvgChunk ≤ MaxChunk`, `ChunkAll`
terminates without an error and without a slice out of range, and its chunks tile `x`. -/
theorem chunkAll_tilesExactly (gear : GearTable) (sha256 : List UInt8 → List UInt8) (cfg : Config)
    (x : List UInt8) (reader : Reader) (hmin : 0 < cfg.minChunk)
    (havg : cfg.minChunk ≤ cfg.avgChunk) (hmax : cfg.avgChunk ≤ cfg.maxChunk)
    (hx : Feeds reader x) :
    ∃ chunks, (∀ fuel, x.length < fuel →
        chunkAll gear sha256 fuel (newWithConfig reader cfg) = .ok (chunks, none)) ∧
      TilesExactly sha256 cfg.maxChunk x chunks := by
  obtain ⟨hmin', havg', hmax'⟩ := cfg.params_sizes hmin havg hmax
  refine ⟨_, fun fuel hfuel => chunkAll_eq gear sha256 hx (.inl (by omega)) hfuel, ?_⟩
  have htiles := tilesExactly_chunksFrom gear sha256
    (show cfg.params.avgChunk ≤ cfg.params.maxChunk by omega) x
  rwa [hmax'] at htiles

/-- Sizes of one to three bytes. -/
def smallConfig : Config := { minChunk := 1, avgChunk := 2, maxChunk := 3, maskS := 1, maskL := 3 }

/-- Five bytes in two reads, the second of which comes with `io.EOF`. -/
def smallReader : Reader := [⟨[7, 7], none⟩, ⟨[7, 8, 9], some .eof⟩]

theorem feeds_smallReader : Feeds smallReader [7, 7, 7, 8, 9] :=
  ⟨.inl ⟨rfl, .inr ⟨rfl, rfl⟩⟩, rfl⟩

theorem chunkAll_tilesExactly_smallConfig :
    ∃ chunks, (∀ fuel, 5 < fuel →
        chunkAll gearTable (fun bytes => bytes) fuel (newWithConfig smallReader smallConfig) =
          .ok (chunks, none)) ∧
      TilesExactly (fun bytes => bytes) 3 [7, 7, 7, 8, 9] chunks :=
  chunkAll_tilesExactly gearTable (fun bytes => bytes) smallConfig [7, 7, 7, 8, 9] smallReader
    (by decide) (by decide) (by decide) feeds_smallReader

/-- `ChunkFromBytes` tiles what it is given. -/
theorem chunkFromBytes_eq (sha256 : List UInt8 → List UInt8) (data : List UInt8)
    (hfuel : data.length < fuel) :
    ∃ chunks, chunkFromBytes sha256 fuel data = .ok (chunks, none) ∧
      TilesExactly sha256 maxChunk data chunks := by
  have hx : Feeds (byteReader data) data := by
    unfold byteReader
    split
    · next h => exact ⟨trivial, h.symm⟩
    · exact ⟨.inl ⟨rfl, trivial⟩, List.append_nil data⟩
  refine ⟨_, chunkAll_eq gearTable sha256 hx (.inl (by decide)) hfuel, ?_⟩
  exact tilesExactly_chunksFrom gearTable sha256
    (show defaultConfig.params.avgChunk ≤ defaultConfig.params.maxChunk by decide) data

theorem chunkFromBytes_three :
    ∃ chunks, chunkFromBytes (fun bytes => bytes) 4 [7, 8, 9] = .ok (chunks, none) ∧
      TilesExactly (fun bytes => bytes) maxChunk [7, 8, 9] chunks :=
  chunkFromBytes_eq _ _ (by decide)

end Aegis.FastCdc.Go
