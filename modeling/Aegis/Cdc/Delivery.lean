import Aegis.Cdc.Loops

/-!
# Derivation work is not lost

What committing an offset should mean: a task has been written for every inserted row below the
offset of the routers, and every task below the offset of the consumers has been processed without a
failure or is among the dead letters.

Both loops commit whatever came of handling a message, so this depends on the writes: it holds in
every run in which each write, to the tasks and to the dead letters, is appended to its topic
(`delivered`). A write that is not appended loses the work for good.
-/

namespace Aegis.Cdc

open Consume

/-! ## Handled messages -/

/-- A task has been written for the message, if it is an inserted row. -/
def Routed (J : Codec) (w : World) (msg : Message) : Prop :=
  ∀ env row, J.envelope msg.value = .ok env → env.op = ['c'] → env.after = some row →
    ∃ p, ⟨(taskOf J env row).versionId, Json.marshal (taskOf J env row).fields,
      some msg.position⟩ ∈ w.tasks p

/-- The pool has processed the task, and none of its workers failed. -/
def Processed (J : Codec) (w : World) (msg : Message) : Prop :=
  ∃ task results, J.task msg.value = .ok task ∧
    ⟨msg.position, eventOf task, results⟩ ∈ w.processed ∧ ∀ res ∈ results, res.status ≠ .failed

/-- There is a dead letter for the task. -/
def DeadLettered (J : Codec) (w : World) (msg : Message) : Prop :=
  ∃ reason failedAt,
    ⟨msg.key, Json.marshal (deadLetter J msg reason failedAt), some msg.position⟩ ∈ w.dlq

/-- **No work is lost**: below the offsets that are committed, everything has been handled. -/
structure NoneLost (J : Codec) (s : Pipeline) : Prop where
  routed : ∀ p o, o < s.routers.offset p →
    ∃ msg, (messages s.world.input p)[o]? = some msg ∧ Routed J s.world msg
  consumed : ∀ p o, o < s.consumers.offset p →
    ∃ msg, (messages s.world.tasks p)[o]? = some msg ∧
      (Processed J s.world msg ∨ DeadLettered J s.world msg)

/-! ## A world that grows -/

/-- Topics and records are only appended to. -/
structure Grows (w w' : World) : Prop where
  input : ∀ p, w.input p <+: w'.input p
  tasks : ∀ p, w.tasks p <+: w'.tasks p
  dlq : w.dlq <+: w'.dlq
  processed : w.processed <+: w'.processed

/-- What the calls may tell: a write that its record is in the topic, the pool that it was
called. -/
def contract : Contract Command Answer World where
  grows := Grows
  may _ _ := True
  told
    | w, .writeMessages .tasks msg key value, _ => ∃ p, ⟨key, value, some msg.position⟩ ∈ w.tasks p
    | w, .writeMessages .dlq msg key value, _ => ⟨key, value, some msg.position⟩ ∈ w.dlq
    | w, .processEvent msg event, results => ⟨msg.position, event, results⟩ ∈ w.processed
    | _, .now, _ => True
  refl _ := ⟨fun _ => List.prefix_rfl, fun _ => List.prefix_rfl, List.prefix_rfl, List.prefix_rfl⟩
  trans h₁ h₂ := ⟨fun p => (h₁.input p).trans (h₂.input p),
    fun p => (h₁.tasks p).trans (h₂.tasks p),
    h₁.dlq.trans h₂.dlq, h₁.processed.trans h₂.processed⟩

variable {J : Codec} {w w' : World} {msg : Message} {s s' : Pipeline}

theorem prefix_append (log : Nat → List Record) (p : Nat) (r : Record) (p' : Nat) :
    log p' <+: append log p r p' := by
  rw [append, Function.update_apply]
  split
  · next h =>
    rw [h]
    exact List.prefix_append _ _
  · exact List.prefix_rfl

/-- A message keeps its place. -/
theorem messages_grow {p o : Nat} (hlog : log p <+: log' p) (h : (messages log p)[o]? = some msg) :
    (messages log' p)[o]? = some msg := by
  rw [messages, List.getElem?_mapIdx, Option.map_eq_some_iff] at h ⊢
  obtain ⟨r, hr, hmsg⟩ := h
  obtain ⟨rest, hrest⟩ := hlog
  refine ⟨r, ?_, hmsg⟩
  rw [← hrest, List.getElem?_append_left (List.getElem?_eq_some_iff.1 hr).1, hr]

theorem Routed.grow (h : Routed J w msg) (hw : Grows w w') : Routed J w' msg := by
  intro env row henv hop hrow
  obtain ⟨p, hp⟩ := h env row henv hop hrow
  exact ⟨p, (hw.tasks p).subset hp⟩

theorem Processed.grow (h : Processed J w msg) (hw : Grows w w') : Processed J w' msg := by
  obtain ⟨task, results, htask, hmem, hres⟩ := h
  exact ⟨task, results, htask, hw.processed.subset hmem, hres⟩

theorem DeadLettered.grow (h : DeadLettered J w msg) (hw : Grows w w') : DeadLettered J w' msg := by
  obtain ⟨reason, failedAt, hmem⟩ := h
  exact ⟨reason, failedAt, hw.dlq.subset hmem⟩

/-! ## The loops handle what they fetch -/

theorem keeps_writeTask :
    contract.Keeps (fun w _ => ∃ p, ⟨key, value, some msg.position⟩ ∈ w.tasks p)
      (writeMessages .tasks msg key value) w := by
  refine (Contract.Keeps.perform fun _ _ => trivial).mono fun w' a _ hknown => ?_
  obtain ⟨w₀, hw₀, p, hp⟩ := hknown
  exact ⟨p, (hw₀.tasks p).subset hp⟩

theorem keeps_writeLetter :
    contract.Keeps (fun w _ => ⟨key, value, some msg.position⟩ ∈ w.dlq)
      (writeMessages .dlq msg key value) w := by
  refine (Contract.Keeps.perform fun _ _ => trivial).mono fun w' a _ hknown => ?_
  obtain ⟨w₀, hw₀, hmem⟩ := hknown
  exact hw₀.dlq.subset hmem

/-- `routeMessage` writes the task. -/
theorem keeps_routeMessage (w : World) (msg : Message) :
    contract.Keeps (fun w _ => Routed J w msg) (routeMessage J msg) w := by
  unfold routeMessage
  split
  · next e herror =>
    intro w' _ env row henv
    cases herror.symm.trans henv
  · next env henv =>
    split
    · next hnone =>
      intro w' _ env' row henv' _ hrow
      cases henv.symm.trans henv'
      cases hnone.symm.trans hrow
    · next row hrow =>
      split
      · next hop =>
        intro w' _ env' row' henv' hop'
        cases henv.symm.trans henv'
        exact absurd hop' hop
      · refine keeps_writeTask.mono fun w' _ _ hmem env' row' henv' _ hrow' => ?_
        cases henv.symm.trans henv'
        cases hrow.symm.trans hrow'
        exact hmem

/-- `processMessage` returns nil only for a task that was processed without a failure. -/
theorem keeps_processMessage (w : World) (msg : Message) :
    contract.Keeps (fun w err => err = none → Processed J w msg) (processMessage J msg) w := by
  unfold processMessage
  split
  · exact fun w' _ hnone => nomatch hnone
  · next task htask =>
    refine (Contract.Keeps.perform fun _ _ => trivial).bind fun w₁ results _ hknown => ?_
    obtain ⟨w₀, hw₀, hmem⟩ := hknown
    split
    · exact fun w' _ hnone => nomatch hnone
    · next hfind =>
      intro w₂ hw₂ _
      refine ⟨task, results, htask, (hw₀.processed.trans hw₂.processed).subset hmem, ?_⟩
      intro res hres hfailed
      exact List.find?_eq_none.1 hfind res hres (decide_eq_true hfailed)

theorem keeps_sendToDLQ (w : World) (msg : Message) (reason : List Char) :
    contract.Keeps (fun w _ => DeadLettered J w msg) (sendToDLQ J msg reason) w := by
  refine (Contract.Keeps.perform fun _ _ => trivial).bind fun w₁ failedAt _ _ => ?_
  exact keeps_writeLetter.mono fun w₂ _ _ hmem => ⟨reason, failedAt, hmem⟩

/-- **The routers** do what they are for. -/
theorem lawful_routers (J : Codec) : (routers J).Lawful contract (Routed J) where
  topic hw h := messages_grow (hw.input _) h
  keep hw h := h.grow hw
  handle w msg := (keeps_routeMessage w msg).bind fun _ _ _ h _ hw => h.grow hw

/-- **The consumers** do what they are for. -/
theorem lawful_consumers (J : Codec) :
    (consumers J).Lawful contract fun w msg => Processed J w msg ∨ DeadLettered J w msg where
  topic hw h := messages_grow (hw.tasks _) h
  keep hw h := h.imp (·.grow hw) (·.grow hw)
  handle w msg := by
    refine (keeps_processMessage w msg).bind fun w₁ err _ herr => ?_
    cases err with
    | none => exact fun w₂ hw₂ => .inl ((herr rfl).grow hw₂)
    | some reason =>
      refine (keeps_sendToDLQ w₁ msg reason).bind fun w₂ _ _ hdead => ?_
      exact fun w₃ hw₃ => .inr (hdead.grow hw₃)

/-! ## Runs -/

/-- A write is appended to its topic. -/
def appended : Option (Command × Outcome) → Bool
  | some (.writeMessages .., e) => e.partition.isSome
  | _ => true

/-- In a step of a loop that writes, the write is appended. -/
def delivered (s : Pipeline) : Act → Bool
  | .router a => appended (Consumer.answered s.routers a)
  | .consumer a => appended (Consumer.answered s.consumers a)
  | _ => true

/-- The answer to a call is true if a write is appended. -/
theorem respond_truthful (h : appended (some (c, e)) = true) :
    contract.grows w (respond e c w).2 ∧
      contract.told (respond e c w).2 c (respond e c w).1 := by
  have hrefl := contract.refl w
  cases c with
  | writeMessages topic msg key value =>
    obtain ⟨p, hp⟩ := Option.isSome_iff_exists.1 h
    cases topic with
    | tasks =>
      simp only [respond, hp]
      exact ⟨{ hrefl with tasks := prefix_append w.tasks p _ }, p, by simp [append]⟩
    | dlq =>
      simp only [respond, hp]
      exact ⟨{ hrefl with dlq := List.prefix_append _ _ },
        List.mem_append_right _ (List.mem_singleton_self _)⟩
  | processEvent msg event =>
    exact ⟨{ hrefl with processed := List.prefix_append _ _ },
      List.mem_append_right _ (List.mem_singleton_self _)⟩
  | now => exact ⟨hrefl, trivial⟩

/-- The invariant of the pipeline: both groups are settled. -/
structure PipelineSettled (J : Codec) (s : Pipeline) : Prop where
  routers : (routers J).Settled contract (Routed J) s.world s.routers
  consumers : (consumers J).Settled contract
    (fun w msg => Processed J w msg ∨ DeadLettered J w msg) s.world s.consumers

theorem PipelineSettled.noneLost (h : PipelineSettled J s) : NoneLost J s :=
  ⟨fun p o ho => h.routers.committed p o ho, fun p o ho => h.consumers.committed p o ho⟩

theorem PipelineSettled.grow (h : PipelineSettled J s) (hw : Grows s.world w') :
    PipelineSettled J { s with world := w' } :=
  ⟨h.routers.grow (lawful_routers J) hw, h.consumers.grow (lawful_consumers J) hw⟩

/-- One step whose write, if it makes one, is appended. -/
theorem PipelineSettled.step (h : PipelineSettled J s) (hok : delivered s a = true)
    (hstep : s.step J a = some s') : PipelineSettled J s' := by
  have hrefl := contract.refl s.world
  cases a with
  | change p key value =>
    cases hstep
    exact h.grow { hrefl with input := prefix_append _ p _ }
  | task p key value =>
    cases hstep
    exact h.grow { hrefl with tasks := prefix_append _ p _ }
  | router a =>
    obtain ⟨⟨w', g'⟩, hgroup, rfl⟩ := Option.map_eq_some_iff.1 hstep
    have htrue : ∀ c e, Consumer.answered s.routers a = some (c, e) →
        (Cdc.routers J).Truthful contract s.world c e := by
      intro c e hc
      exact respond_truthful (hc ▸ hok)
    have hw := Consumer.grows_of_step htrue hgroup
    exact ⟨h.routers.step (lawful_routers J) htrue hgroup,
      h.consumers.grow (lawful_consumers J) hw⟩
  | consumer a =>
    obtain ⟨⟨w', g'⟩, hgroup, rfl⟩ := Option.map_eq_some_iff.1 hstep
    have htrue : ∀ c e, Consumer.answered s.consumers a = some (c, e) →
        (Cdc.consumers J).Truthful contract s.world c e := by
      intro c e hc
      exact respond_truthful (hc ▸ hok)
    have hw := Consumer.grows_of_step htrue hgroup
    exact ⟨h.routers.grow (lawful_routers J) hw,
      h.consumers.step (lawful_consumers J) htrue hgroup⟩

/-- **Derivation work is not lost** in a run whose writes are all appended to their topics, however
processing, committing and the loops themselves fail. -/
theorem noneLost_of_delivered (J : Codec) (w : World) (m n : Nat) {acts : List Act} {s : Pipeline}
    (hok : Run.throughout (Pipeline.step J) delivered (.init w m n) acts = true)
    (hrun : Run.run (Pipeline.step J) (.init w m n) acts = some s) : NoneLost J s := by
  have hinit : PipelineSettled J (.init w m n) :=
    ⟨Consumer.settled_init w m, Consumer.settled_init w n⟩
  exact (Run.run_induction PipelineSettled.step hinit hok hrun).noneLost

/-- A change event that inserts a version, and the decoders of a pipeline that reads it. -/
def insertText : List Char :=
  "\x7b\"after\":\x7b\"version_id\":\"v1\"\x7d,\"op\":\"c\",\"ts_ms\":0\x7d".toList

def insertEnvelope : DebeziumPayloadEnvelope where
  after := some ((∅ : Table String Value).insert "version_id" (.str "v1".toList))
  op := ['c']
  timestamp := 0

def insertCodec : Codec where
  envelope text := if text = insertText then .ok insertEnvelope else .error "unexpected".toList
  task := DerivationTaskEvent.read
  rfc3339 _ := "1970-01-01T00:00:00Z".toList

/-- A version whose task fails in the pool: it is routed, fails and goes to the dead letters. -/
def failedTask : List Act :=
  [.change 0 [] insertText, .router (.assign 0 0), .router (.fetch 0 0),
    .router (.answer 0 { partition := some 0 }), .router (.commit 0 true),
    .consumer (.assign 0 0), .consumer (.fetch 0 0),
    .consumer (.answer 0 { results := [⟨"ocr".toList, .failed, "timeout".toList⟩] }),
    .consumer (.answer 0 {}), .consumer (.answer 0 { partition := some 0 }),
    .consumer (.commit 0 true)]

theorem noneLost_of_delivered_failedTask :
    ∃ s, Run.run (Pipeline.step insertCodec) (.init ⟨fun _ => [], fun _ => [], [], []⟩ 1 1)
        failedTask = some s ∧
      (s.routers.offset 0, s.consumers.offset 0) = (1, 1) ∧ NoneLost insertCodec s := by
  have hrun : (Run.run (Pipeline.step insertCodec) (.init ⟨fun _ => [], fun _ => [], [], []⟩ 1 1)
      failedTask).map (fun s => (s.routers.offset 0, s.consumers.offset 0)) = some (1, 1) := by
    decide +kernel
  obtain ⟨s, hs, hoffsets⟩ := Option.map_eq_some_iff.1 hrun
  exact ⟨s, hs, hoffsets,
    noneLost_of_delivered insertCodec ⟨fun _ => [], fun _ => [], [], []⟩ 1 1 (by decide +kernel) hs⟩

/-- The brokers do not take the task, and the router commits the offset of its row. -/
def lostTask : List Act :=
  [.change 0 [] insertText, .router (.assign 0 0), .router (.fetch 0 0),
    .router (.answer 0 { err := some "leader not available".toList }), .router (.commit 0 true)]

/-- **A write that fails loses the task**: the offset of the row is committed all the same. -/
theorem task_lost_write_failed :
    ∃ s, Run.run (Pipeline.step insertCodec) (.init ⟨fun _ => [], fun _ => [], [], []⟩ 1 1)
      lostTask = some s ∧ ¬ NoneLost insertCodec s := by
  have hrun : ∀ p, (Run.run (Pipeline.step insertCodec)
      (.init ⟨fun _ => [], fun _ => [], [], []⟩ 1 1) lostTask).map (fun s =>
        (s.routers.offset 0, (messages s.world.input 0)[0]?, s.world.tasks p)) =
      some (1, some ⟨0, 0, [], insertText⟩, []) := fun p => rfl
  obtain ⟨s, hs, -⟩ := Option.map_eq_some_iff.1 (hrun 0)
  refine ⟨s, hs, fun hnone => ?_⟩
  have hstate : ∀ p, (s.routers.offset 0, (messages s.world.input 0)[0]?, s.world.tasks p) =
      (1, some ⟨0, 0, [], insertText⟩, []) := by
    intro p
    have h := hrun p
    rw [hs, Option.map_some] at h
    exact Option.some.inj h
  have hoffset : s.routers.offset 0 = 1 := congrArg Prod.fst (hstate 0)
  obtain ⟨msg, hmsg, hrouted⟩ := hnone.routed 0 0 (by rw [hoffset]; exact Nat.one_pos)
  have hinput : (messages s.world.input 0)[0]? = some ⟨0, 0, [], insertText⟩ :=
    congrArg (fun x => x.2.1) (hstate 0)
  cases hinput.symm.trans hmsg
  obtain ⟨p, hp⟩ := hrouted insertEnvelope _ rfl rfl rfl
  have htasks : s.world.tasks p = [] := congrArg (fun x => x.2.2) (hstate p)
  rw [htasks] at hp
  cases hp

end Aegis.Cdc
