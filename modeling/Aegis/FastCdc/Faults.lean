import Aegis.FastCdc.Chunking

/-!
# Reader errors

A stream whose reader fails now and then, against one whose reader does not. A failing `read`
strikes in the middle of `refill`: what has been read so far stays in the buffer, and the call
answers with the error. The stream still stands at the same bytes, so the next call goes on as if
nothing had happened: without the errors, the answers are those of the error-free stream
(`Stands.answered_nextChunks`), and each error is answered once, in the reader's order.
-/

namespace Aegis.FastCdc

section
variable {Digest : Type} (host : Host Digest)

/-- The reader errors among the answers of calls. -/
def ioErrors {α : Type} (answers : List (Except Fault α)) : List IoError :=
  answers.filterMap fun
    | .error (.io e) => some e
    | _ => none

/-- The answers of calls that are not reader errors. -/
def answered {α : Type} (answers : List (Except Fault α)) : List (Except Fault α) :=
  answers.filter fun
    | .error (.io _) => false
    | _ => true

@[simp] theorem ioErrors_io (e : IoError) (l : List (Except Fault α)) :
    ioErrors (.error (.io e) :: l) = e :: ioErrors l := rfl

@[simp] theorem answered_io (e : IoError) (l : List (Except Fault α)) :
    answered (.error (.io e) :: l) = answered l := rfl

/-- What a call answers at some bytes is no reader error. -/
theorem emit_ne_io (cfg : Config) (off : Nat) (s : List UInt8) (e : IoError) :
    emit host cfg off s ≠ .error (.io e) := by
  rcases eq_or_ne s [] with rfl | hs
  · simp [emit]
  · rcases emit_cases host cfg off hs with ⟨-, h⟩ | ⟨p, -, h⟩
    · simp [h]
    · simp [h]

/-- What the search answers is no reader error. -/
theorem emit_cons (cfg : Config) (off : Nat) (s : List UInt8)
    (l : List (Except Fault (Option (ChunkDescriptor Digest)))) :
    ioErrors (emit host cfg off s :: l) = ioErrors l ∧
      answered (emit host cfg off s :: l) = emit host cfg off s :: answered l := by
  have hne := emit_ne_io host cfg off s
  cases h : emit host cfg off s with
  | ok o => exact ⟨rfl, rfl⟩
  | error f =>
    cases f with
    | io e => exact absurd h (hne e)
    | panic p => exact ⟨rfl, rfl⟩

variable {s : List UInt8} {st st₀ : FastCDCStream}

/-- **Errors are transparent.** After `n` calls the reader errors answered are the first ones of the
reader, and the other answers are those of an error-free stream at the same bytes. -/
theorem Stands.answered_nextChunks (h : Stands st s) (h₀ : Stands st₀ s)
    (hcfg : st.cfg = st₀.cfg) (hoff : st.globalOffset = st₀.globalOffset)
    (herr₀ : pendingErrors st₀.reader = []) (n : Nat) :
    ioErrors (nextChunks host n st) <+: pendingErrors st.reader ∧
      ∃ m, n = m + (ioErrors (nextChunks host n st)).length ∧
        answered (nextChunks host n st) = nextChunks host m st₀ := by
  induction n generalizing s st st₀ with
  | zero => exact ⟨List.nil_prefix, 0, rfl, rfl⟩
  | succ n ih =>
    obtain ⟨t, hc, ⟨e, hn, hs, ho, he⟩ | ⟨hn, hs, ho, he⟩⟩ := h.nextChunk host
    · -- the stream has not moved
      obtain ⟨hpre, m, hm, hans⟩ := ih hs h₀ (hc.trans hcfg) (ho.trans hoff) herr₀
      rw [nextChunks, hn, ioErrors_io, answered_io, he]
      refine ⟨List.prefix_cons_inj e |>.2 hpre, m, ?_, hans⟩
      rw [List.length_cons, ← Nat.add_assoc, ← hm]
    · obtain ⟨t₀, hc₀, hn₀, hs₀, ho₀, he₀⟩ := (h₀.nextChunk host).of_quiet herr₀
      rw [hcfg] at hs
      rw [hcfg, hoff] at hn ho
      obtain ⟨hpre, m, hm, hans⟩ := ih hs hs₀ (hc.trans (hcfg.trans hc₀.symm))
        (ho.trans ho₀.symm) he₀
      rw [nextChunks, hn, (emit_cons ..).1, (emit_cons ..).2, ← he]
      refine ⟨hpre, m + 1, ?_, ?_⟩
      · rw [Nat.add_right_comm, ← hm]
      · rw [nextChunks, hn₀, hans]

/-! ## The last error -/

/-- The end of file has been seen only behind everything that the reader answers. -/
def Ended (reader : Reader) (eof : Bool) : Prop := eof = true → reader = []

theorem ended_false (reader : Reader) : Ended reader false := fun h => absurd h Bool.false_ne_true

theorem Ended.refillLoop {maxChunk : Nat} {reader : Reader} {buffer : List UInt8} {eof : Bool}
    (hne : ∀ d, .ok d ∈ reader → d.bytes ≠ []) (he : Ended reader eof) :
    let r := refillLoop maxChunk reader buffer eof
    Ended r.2.1 r.2.2.2 := by
  induction reader generalizing buffer eof with
  | nil =>
    cases eof with
    | true => exact fun _ => rfl
    | false =>
      unfold FastCdc.refillLoop
      split
      · exact fun _ => rfl
      · exact fun _ => rfl
  | cons answer rest ih =>
    cases eof with
    | true =>
      unfold FastCdc.refillLoop
      exact he
    | false =>
      cases answer with
      | error e =>
        unfold FastCdc.refillLoop
        split
        · exact ended_false _
        · exact ended_false _
      | ok d =>
        have hd : d.bytes.length ≠ 0 := by simpa using hne d (.head _)
        unfold FastCdc.refillLoop
        split
        · simp only [hd, ↓reduceIte]
          exact ih (fun d hd => hne d (.tail _ hd)) (ended_false rest)
        · exact ended_false _

/-- A call reads in `refill` only. -/
theorem nextChunk_reader (st : FastCDCStream) :
    (nextChunk host st).2.reader = (refill st).2.reader ∧
      (nextChunk host st).2.eof = (refill st).2.eof := by
  unfold nextChunk
  split
  · next st' h => rw [h]; exact ⟨rfl, rfl⟩
  · next st' h =>
    rw [h]
    split
    · exact ⟨rfl, rfl⟩
    · split
      · exact ⟨rfl, rfl⟩
      · dsimp only
        split
        · exact ⟨rfl, rfl⟩
        · exact ⟨rfl, rfl⟩

theorem Stands.ended_nextChunk (h : Stands st s) (hend : Ended st.reader st.eof) :
    Ended (FastCdc.nextChunk host st).2.reader (FastCdc.nextChunk host st).2.eof := by
  obtain ⟨hreader, heof⟩ := nextChunk_reader host st
  rw [hreader, heof]
  exact .refillLoop h.nonempty hend

/-- When nothing is left to chunk, an answer that is no error is behind all errors. -/
theorem Stands.no_error_left (h : Stands st []) (hend : Ended st.reader st.eof)
    (hok : ∀ e, (FastCdc.nextChunk host st).1 ≠ .error (.io e)) :
    pendingErrors st.reader = [] := by
  obtain ⟨st', -, -, ⟨hr, hfilled, herr⟩ | ⟨e, hr, -⟩⟩ := h.refill
  · have hlast : Ended (FastCdc.refill st).2.reader (FastCdc.refill st).2.eof :=
      .refillLoop h.nonempty hend
    rw [hr] at hlast
    have heof : st'.eof = true := by
      obtain ⟨h0, h1, h2⟩ := st'.valid
      exact hfilled.eof_iff.2 (by rw [List.length_nil]; omega)
    rw [← herr, hlast heof]
    rfl
  · refine absurd ?_ (hok e)
    rw [FastCdc.nextChunk, hr]

/-- **No error is lost**: enough calls answer all of them. -/
theorem Stands.ioErrors_nextChunks (h : Stands st s) (hend : Ended st.reader st.eof)
    (hn : s.length + (pendingErrors st.reader).length < n) :
    ioErrors (nextChunks host n st) = pendingErrors st.reader := by
  induction n generalizing s st with
  | zero => omega
  | succ n ih =>
    have hend' := h.ended_nextChunk host hend
    obtain ⟨t, hc, ⟨e, hnext, hs, -, he⟩ | ⟨hnext, hs, -, he⟩⟩ := h.nextChunk host
    · rw [hnext] at hend'
      rw [nextChunks, hnext, ioErrors_io, he, ih hs hend' ?_]
      rw [he, List.length_cons] at hn
      omega
    · rw [hnext] at hend'
      rw [nextChunks, hnext, (emit_cons ..).1, ← he]
      rcases eq_or_ne s [] with rfl | hne
      · -- everything has been chunked, and no error is left
        have hok : ∀ e, (FastCdc.nextChunk host st).1 ≠ .error (.io e) := by
          intro e
          rw [hnext]
          exact emit_ne_io host st.cfg st.globalOffset [] e
        have hnone := h.no_error_left host hend hok
        have hpre := (hs.answered_nextChunks host hs rfl rfl (he.trans hnone) n).1
        rw [he, hnone] at hpre ⊢
        exact List.prefix_nil.1 hpre
      · refine ih hs hend' ?_
        have hlt := (cutRule st.cfg st.valid).length_drop_lt hne
        rw [cutRule_cut] at hlt
        rw [he]
        omega

end

/-- **Error transparency.** Over a reader of `x` with errors anywhere between its deliveries, the
answers of any number of `next_chunk` calls without the reader errors are the answers of a stream
over an error-free reader of `x`, and the reader errors are answered in order. In as many calls as
there are errors, and more than `x` is long besides, every error is answered once. -/
theorem nextChunks_error_transparent {Digest : Type} (host : Host Digest) (cfg : Config)
    (hcfg : cfg.validate = .ok ()) (x : List UInt8) (reader : Reader)
    (hne : ∀ d, .ok d ∈ reader → d.bytes ≠ []) (hreader : undelivered reader = x)
    (pieces : List Delivery) (hx : Delivers pieces x) :
    ∃ st st₀, withConfig reader cfg = .ok st ∧ withConfig (readerOf pieces) cfg = .ok st₀ ∧
      (∀ n, ioErrors (nextChunks host n st) <+: pendingErrors reader ∧
        ∃ m, n = m + (ioErrors (nextChunks host n st)).length ∧
          answered (nextChunks host n st) = nextChunks host m st₀) ∧
      ∀ n, x.length < n →
        ioErrors (nextChunks host (n + (pendingErrors reader).length) st) = pendingErrors reader ∧
        answered (nextChunks host (n + (pendingErrors reader).length) st) =
          nextChunks host n st₀ := by
  have hv := Config.validate_eq_ok_iff.1 hcfg
  obtain ⟨st, hst, hs, hc, hoff, hread, heof⟩ := stands_withConfig_reader hv hne
  obtain ⟨st₀, hst₀, hs₀, hc₀, hoff₀, herr₀⟩ := stands_withConfig hv hx
  rw [hreader] at hs
  have hrun := hs.answered_nextChunks host hs₀ (hc.trans hc₀.symm) (hoff.trans hoff₀.symm) herr₀
  have hend : Ended st.reader st.eof := by
    rw [heof]
    exact nofun
  rw [hread] at hrun
  refine ⟨st, st₀, hst, hst₀, hrun, fun n hn => ?_⟩
  have hall : ioErrors (nextChunks host (n + (pendingErrors reader).length) st) =
      pendingErrors reader := by
    rw [hs.ioErrors_nextChunks host hend (by rw [hread]; omega), hread]
  obtain ⟨-, m, hm, hans⟩ := hrun (n + (pendingErrors reader).length)
  rw [hall] at hm
  rw [hall, hans, Nat.add_right_cancel hm]
  exact ⟨rfl, rfl⟩

/-- Two errors, one in the middle of a window and one before the end of the file. -/
theorem nextChunks_error_transparent_tinyConfig :
    ∃ st st₀, withConfig [.ok ⟨[7, 7], by decide⟩, .error ⟨.other, "a"⟩, .ok ⟨[7, 7], by decide⟩,
        .error ⟨.other, "b"⟩] tinyConfig = .ok st ∧
      withConfig (readerOf tinyPieces) tinyConfig = .ok st₀ ∧
      ioErrors (nextChunks identityHost 7 st) = [⟨.other, "a"⟩, ⟨.other, "b"⟩] ∧
      answered (nextChunks identityHost 7 st) = nextChunks identityHost 5 st₀ := by
  obtain ⟨st, st₀, hst, hst₀, -, hall⟩ := nextChunks_error_transparent identityHost tinyConfig rfl
    [7, 7, 7, 7] [.ok ⟨[7, 7], by decide⟩, .error ⟨.other, "a"⟩, .ok ⟨[7, 7], by decide⟩,
      .error ⟨.other, "b"⟩] (by simp) rfl tinyPieces delivers_tinyPieces
  exact ⟨st, st₀, hst, hst₀, hall 5 (by decide)⟩

end Aegis.FastCdc
