import Aegis.FastCdc.Go
import Aegis.Lib.Run

/-!
# The parallel uploader (`aegis/upload.go`)

`uploadChunksParallel` starts a goroutine for each chunk of its work list. At most ten hold the
semaphore at a time; each reads its chunk, uploads it, adds the size to a counter and reports to a
channel, on which the caller receives until it is closed or brings an error. The steps of the
goroutines, of the one that closes the channel and of the caller come in any order. When the caller
returns without an error, every goroutine has reported success, and has counted before (`Tallied`).
-/

namespace Aegis.Client

open FastCdc.Go (Chunk)

/-- How far a goroutine has come, and whether its upload has succeeded. -/
inductive Progress
  | queued
  | working
  | counted
  | reported (ok : Bool)
  | released (ok : Bool)
  | finished (ok : Bool)
  deriving DecidableEq

namespace Progress

/-- The size is in the counter. -/
def isCounted : Progress → Bool
  | queued => false
  | working => false
  | counted => true
  | reported ok => ok
  | released ok => ok
  | finished ok => ok

/-- An error has been reported. -/
def isFailed : Progress → Bool
  | reported ok => !ok
  | released ok => !ok
  | finished ok => !ok
  | _ => false

end Progress

/-- A goroutine. -/
structure Worker where
  chunk : Chunk
  progress : Progress

/-- What the counter owes to a goroutine. -/
def Worker.credit (w : Worker) : Int := if w.progress.isCounted then w.chunk.size else 0

/-- The caller: it receives, or has returned the counter and an error. -/
inductive Caller
  | receiving
  | returned (uploaded : Int) (err : Option String)
  deriving DecidableEq

/-- The goroutines, the tokens in the semaphore, the counter, the channel and the caller. -/
structure Pool where
  workers : List Worker
  inUse : Nat
  totalUploaded : Int
  errChan : List (Option String)
  closed : Bool
  caller : Caller

/-- `defaultMaxParallel`. -/
def defaultMaxParallel : Nat := 10

/-- The steps. A goroutine fails with the error of its read or of its upload. -/
inductive PoolAct
  | acquire (i : Nat)
  | fail (i : Nat) (reading : Bool) (err : String)
  | count (i : Nat)
  | report (i : Nat)
  | release (i : Nat)
  | finish (i : Nat)
  | close
  | receive
  | return

namespace Pool

/-- A goroutine for each chunk. -/
def start (work : List Chunk) : Pool :=
  ⟨work.map fun chunk => ⟨chunk, .queued⟩, 0, 0, [], false, .receiving⟩

def advance (s : Pool) (i : Nat) (p : Progress) : Pool :=
  { s with workers := s.workers.modify i fun w => { w with progress := p } }

/-- The error that a goroutine reports. -/
def failure (chunk : Chunk) (reading : Bool) (err : String) : String :=
  "chunk " ++ String.ofList (chunk.hashHex.take 12) ++ (if reading then " read: " else ": ") ++ err

/-- One step. -/
def step (s : Pool) : PoolAct → Option Pool
  | .acquire i => s.workers[i]?.bind fun w =>
    if w.progress = .queued ∧ s.inUse < defaultMaxParallel then
      some { s.advance i .working with inUse := s.inUse + 1 }
    else none
  | .fail i reading err => s.workers[i]?.bind fun w =>
    if w.progress = .working then
      some { s.advance i (.reported false) with
        errChan := s.errChan ++ [some (failure w.chunk reading err)] }
    else none
  | .count i => s.workers[i]?.bind fun w =>
    if w.progress = .working then
      some { s.advance i .counted with totalUploaded := s.totalUploaded + w.chunk.size }
    else none
  | .report i => s.workers[i]?.bind fun w =>
    if w.progress = .counted then
      some { s.advance i (.reported true) with errChan := s.errChan ++ [none] }
    else none
  | .release i => s.workers[i]?.bind fun w =>
    match w.progress with
    | .reported ok => some { s.advance i (.released ok) with inUse := s.inUse - 1 }
    | _ => none
  | .finish i => s.workers[i]?.bind fun w =>
    match w.progress with
    | .released ok => some (s.advance i (.finished ok))
    | _ => none
  | .close =>
    if s.workers.all (fun w => w.progress matches .finished _) && !s.closed then
      some { s with closed := true }
    else none
  | .receive =>
    match s.caller, s.errChan with
    | .receiving, none :: rest => some { s with errChan := rest }
    | .receiving, some err :: rest =>
      some { s with errChan := rest, caller := .returned s.totalUploaded (some err) }
    | _, _ => none
  | .return =>
    match s.caller, s.errChan, s.closed with
    | .receiving, [], true => some { s with caller := .returned s.totalUploaded none }
    | _, _, _ => none

/-- The sum of the sizes of chunks. -/
def sizes (chunks : List Chunk) : Int := (chunks.map fun c => (c.size : Int)).sum

end Pool

/-- `uploadChunksParallel` on the chunks that have an upload URL, along a schedule of the
goroutines: the counter and an error; `none` if the schedule ends before it returns. -/
def uploadChunksParallel (schedule : List PoolAct) (work : List Chunk) :
    Option (Int × Option String) :=
  if work = [] then some (0, none)
  else
    match Run.run Pool.step (Pool.start work) schedule with
    | some s =>
      match s.caller with
      | .returned uploaded err => some (uploaded, err)
      | .receiving => none
    | none => none

namespace Pool

/-! ## The counter -/

theorem sum_map_modify (f : α → Int) (g : α → α) {l : List α} (h : l[i]? = some a) :
    ((l.modify i g).map f).sum = (l.map f).sum + (f (g a) - f a) := by
  induction l generalizing i with
  | nil => cases h
  | cons b l ih =>
    cases i with
    | zero =>
      cases h
      rw [List.modify_zero_cons, List.map_cons, List.map_cons, List.sum_cons, List.sum_cons]
      omega
    | succ i =>
      rw [List.modify_succ_cons, List.map_cons, List.map_cons, List.sum_cons, List.sum_cons,
        ih (by simpa using h)]
      omega

/-- The invariant of a pool. The counter is what the goroutines have been credited; a failure is in
the channel or has been received; the channel is closed at the end. -/
structure Tallied (work : List Chunk) (s : Pool) : Prop where
  chunks : s.workers.map Worker.chunk = work
  total : s.totalUploaded = (s.workers.map Worker.credit).sum
  failed : ∀ w ∈ s.workers, w.progress.isFailed = true →
    (∃ msg ∈ s.errChan, msg.isSome) ∨ ∃ n err, s.caller = .returned n (some err)
  closed : s.closed = true → ∀ w ∈ s.workers, ∃ ok, w.progress = .finished ok
  returned : ∀ n, s.caller = .returned n none → n = sizes work

theorem tallied_start (work : List Chunk) : Tallied work (start work) where
  chunks := by
    rw [start, List.map_map]
    exact List.map_id work
  total := by
    rw [start, List.map_map]
    exact (List.sum_eq_zero (by simp [Worker.credit, Progress.isCounted])).symm
  failed w hw hf := by
    obtain ⟨chunk, -, rfl⟩ := List.mem_map.1 hw
    cases hf
  closed h := by cases h
  returned n h := by cases h

theorem mem_advance {s : Pool} (h : w' ∈ (s.advance i p).workers) : w' ∈ s.workers ∨
      ∃ w, s.workers[i]? = some w ∧ w' = { w with progress := p } :=
  Run.mem_modify h

variable {work : List Chunk} {s s' : Pool}

section
variable {i : Nat} {w : Worker} {p : Progress} (h : Tallied work s) (hw : s.workers[i]? = some w)
  (hopen : ∀ ok, w.progress ≠ .finished ok) (hworkers : s'.workers = (s.advance i p).workers)
  (hclosed : s'.closed = s.closed) (hcaller : s'.caller = s.caller)
  (hchan : ∀ msg ∈ s.errChan, msg ∈ s'.errChan)
  (hfail : p.isFailed = true → w.progress.isFailed = true ∨ ∃ msg ∈ s'.errChan, msg.isSome)
include h hw hopen hworkers hclosed hcaller hchan hfail

/-- A goroutine goes on that has not finished. -/
theorem Tallied.move (htotal : s'.totalUploaded =
      s.totalUploaded + (Worker.credit { w with progress := p } - w.credit)) :
    Tallied work s' where
  chunks := by
    rw [← h.chunks, hworkers]
    refine List.ext_getElem? fun j => ?_
    simp only [advance, List.getElem?_map, List.getElem?_modify]
    cases s.workers[j]? with
    | none => rfl
    | some w =>
      refine congrArg some ?_
      dsimp only
      split <;> rfl
  total := by rw [hworkers, htotal, h.total, advance, sum_map_modify Worker.credit _ hw]
  failed w' hw' hf := by
    have hkeep : ∀ w₀ ∈ s.workers, w₀.progress.isFailed = true →
        (∃ msg ∈ s'.errChan, msg.isSome) ∨ ∃ n err, s'.caller = .returned n (some err) := by
      intro w₀ hw₀ hf₀
      rcases h.failed w₀ hw₀ hf₀ with ⟨msg, hmsg, hsome⟩ | hret
      · exact .inl ⟨msg, hchan msg hmsg, hsome⟩
      · exact .inr (hcaller.symm ▸ hret)
    rw [hworkers] at hw'
    rcases mem_advance hw' with hold | ⟨w₀, hw₀, rfl⟩
    · exact hkeep w' hold hf
    · cases hw.symm.trans hw₀
      rcases hfail hf with hbefore | hmsg
      · exact hkeep w (List.mem_of_getElem? hw) hbefore
      · exact .inl hmsg
  closed hc := by
    obtain ⟨ok, hok⟩ := h.closed (hclosed ▸ hc) w (List.mem_of_getElem? hw)
    exact (hopen ok hok).elim
  returned n hn := h.returned n (hcaller ▸ hn)

/-- The same for one that does not count. -/
theorem Tallied.pass (hcount : p.isCounted = w.progress.isCounted)
    (htotal : s'.totalUploaded = s.totalUploaded) : Tallied work s' := by
  refine h.move hw hopen hworkers hclosed hcaller hchan hfail ?_
  rw [htotal, Worker.credit, Worker.credit, hcount, Int.sub_self, Int.add_zero]

end

/-- When the channel is closed and empty, everything has been counted. -/
theorem Tallied.total_eq (h : Tallied work s) (hclosed : s.closed = true) (hchan : s.errChan = [])
    (hcaller : s.caller = .receiving) : s.totalUploaded = sizes work := by
  have hcredit : ∀ w ∈ s.workers, w.credit = w.chunk.size := by
    intro w hw
    obtain ⟨ok, hok⟩ := h.closed hclosed w hw
    cases ok with
    | true => rw [Worker.credit, hok]; rfl
    | false =>
      rcases h.failed w hw (by rw [hok]; rfl) with ⟨msg, hmsg, -⟩ | ⟨n, err, hret⟩
      · rw [hchan] at hmsg
        cases hmsg
      · rw [hcaller] at hret
        cases hret
  rw [h.total, List.map_congr_left hcredit, ← h.chunks, sizes, List.map_map]
  rfl

/-- A step of a worker that is ready for it. -/
theorem exists_of_bind_ite {o : Option α} {c : α → Prop} [DecidablePred c] {f : α → β}
    (h : (o.bind fun a => if c a then some (f a) else none) = some b) :
    ∃ a, o = some a ∧ c a ∧ f a = b := by
  obtain ⟨a, ha, h⟩ := Option.bind_eq_some_iff.1 h
  split at h
  · next hc => exact ⟨a, ha, hc, Option.some.inj h⟩
  · cases h

/-- **One step** keeps the tally. -/
theorem Tallied.step (h : Tallied work s) (hstep : s.step a = some s') : Tallied work s' := by
  cases a with
  | acquire i =>
    obtain ⟨w, hw, hgo, rfl⟩ := exists_of_bind_ite hstep
    exact h.pass hw (by rw [hgo.1]; nofun) rfl rfl rfl (fun _ hm => hm) nofun
      (by rw [hgo.1]; rfl) rfl
  | fail i reading err =>
    obtain ⟨w, hw, hgo, rfl⟩ := exists_of_bind_ite hstep
    refine h.pass hw (by rw [hgo]; nofun) rfl rfl rfl (fun _ hm => List.mem_append_left _ hm)
      (fun _ => .inr ?_) (by rw [hgo]; rfl) rfl
    exact ⟨_, List.mem_append_right _ List.mem_cons_self, rfl⟩
  | count i =>
    obtain ⟨w, hw, hgo, rfl⟩ := exists_of_bind_ite hstep
    refine h.move hw (by rw [hgo]; nofun) rfl rfl rfl (fun _ hm => hm) nofun ?_
    simp [Worker.credit, hgo, Progress.isCounted]
  | report i =>
    obtain ⟨w, hw, hgo, rfl⟩ := exists_of_bind_ite hstep
    exact h.pass hw (by rw [hgo]; nofun) rfl rfl rfl (fun _ hm => List.mem_append_left _ hm)
      nofun (by rw [hgo]; rfl) rfl
  | release i | finish i =>
    rw [Pool.step, Option.bind_eq_some_iff] at hstep
    obtain ⟨w, hw, hstep⟩ := hstep
    split at hstep
    · next ok hgo =>
      cases hstep
      refine h.pass hw (by rw [hgo]; nofun) rfl rfl rfl (fun _ hm => hm) (fun hf => .inl ?_)
        (by rw [hgo]; rfl) rfl
      rw [hgo]
      exact hf
    · cases hstep
  | close =>
    rw [Pool.step] at hstep
    split at hstep
    · next hall =>
      cases hstep
      refine ⟨h.chunks, h.total, h.failed, fun _ w hw => ?_, h.returned⟩
      have hfin := List.all_eq_true.1 (Bool.and_eq_true_iff.1 hall).1 w hw
      split at hfin
      · next ok hok => exact ⟨ok, hok⟩
      · cases hfin
    · cases hstep
  | receive =>
    simp only [Pool.step] at hstep
    split at hstep
    · next hcaller hchan =>
      cases hstep
      refine ⟨h.chunks, h.total, fun w hw hf => ?_, h.closed, h.returned⟩
      rcases h.failed w hw hf with ⟨msg, hmsg, hsome⟩ | hret
      · rw [hchan] at hmsg
        rcases List.mem_cons.1 hmsg with rfl | hmsg
        · cases hsome
        · exact .inl ⟨msg, hmsg, hsome⟩
      · exact .inr hret
    · cases hstep
      exact ⟨h.chunks, h.total, fun _ _ _ => .inr ⟨_, _, rfl⟩, h.closed, fun _ hn => nomatch hn⟩
    · cases hstep
  | «return» =>
    simp only [Pool.step] at hstep
    split at hstep
    · next hcaller hchan hclosed =>
      cases hstep
      refine ⟨h.chunks, h.total, fun w hw hf => ?_, h.closed, fun n hn => ?_⟩
      · rcases h.failed w hw hf with ⟨msg, hmsg, -⟩ | ⟨n, err, hret⟩
        · rw [hchan] at hmsg
          cases hmsg
        · rw [hcaller] at hret
          cases hret
      · cases hn
        exact h.total_eq hclosed hchan hcaller
    · cases hstep

end Pool

/-- **Without an error the uploader returns the sum of the sizes**, whatever the schedule. -/
theorem uploadChunksParallel_eq (h : uploadChunksParallel schedule work = some (n, none)) :
    n = Pool.sizes work := by
  unfold uploadChunksParallel at h
  split at h
  · next hnil =>
    cases h
    rw [hnil]
    rfl
  · split at h
    · next s hrun =>
      have htally : Pool.Tallied work s :=
        Run.invariant Pool.Tallied.step (Pool.tallied_start work) hrun
      split at h
      · next hcaller =>
        cases h
        exact htally.returned n hcaller
      · cases h
    · cases h

end Aegis.Client
