import MeiliBridge.Orchestrator.EventStream

/-!
# The batches of an event stream

What the stages make of the events that a task receives waits in the batch until the size limit, a
tick or the shutdown has it sent. `StreamTurn` says what one turn of `process_event_stream` does to
the batch: it sends all of it or nothing. Only where a stage panics is the batch gone unsent, since
the panic ends the task with everything it holds.
-/

set_option autoImplicit false

namespace MeiliBridge

open Interaction Trans

/-! ## Where the stages panic -/

/-- The filter lets the event through, and the transformer panics on it. -/
def Stages.TransformPanics (rt : Runtime) (st : Stages) (e : Event) : Prop :=
  st.applyFilter e = .kept e ∧ ∃ t, st.transformer = some t ∧ t.transform rt e = .error .panic

theorem Stages.applyTransformer_panicked_iff {rt : Runtime} {st : Stages} {e : Event} :
    st.applyTransformer rt e = .panicked ↔
      ∃ t, st.transformer = some t ∧ t.transform rt e = .error .panic := by
  unfold applyTransformer
  cases st.transformer with
  | none => simp
  | some t =>
    simp only [Option.some.injEq, exists_eq_left']
    split <;> simp_all

theorem Stages.applyMapper_ne_panicked (st : Stages) (e : Event) :
    st.applyMapper e ≠ .panicked := by
  unfold applyMapper
  split
  · simp
  · split <;> simp

theorem Stages.applySoftDelete_ne_panicked (st : Stages) (e : Event) :
    st.applySoftDelete e ≠ .panicked := by
  unfold applySoftDelete
  split
  · simp
  · split <;> simp

theorem Outcome.andThen_panicked_iff {o : Outcome} {k : Event → Outcome} :
    o.andThen k = .panicked ↔ o = .panicked ∨ ∃ e, o = .kept e ∧ k e = .panicked := by
  cases o <;> simp [andThen]

/-- Of all stages only the transformer panics. -/
theorem Stages.processSingleEvent_panicked_iff {rt : Runtime} {st : Stages} {e : Event} :
    st.processSingleEvent rt e = .panicked ↔ st.TransformPanics rt e := by
  have hlast : ∀ e', (st.applyMapper e').andThen st.applySoftDelete ≠ .panicked := by
    intro e' h
    rcases Outcome.andThen_panicked_iff.mp h with hmapper | ⟨e'', -, hsoft⟩
    · exact st.applyMapper_ne_panicked e' hmapper
    · exact st.applySoftDelete_ne_panicked e'' hsoft
  have hrest : (st.applyTransformer rt e).andThen (fun e =>
      (st.applyMapper e).andThen st.applySoftDelete) = .panicked ↔
      ∃ t, st.transformer = some t ∧ t.transform rt e = .error .panic := by
    rw [Outcome.andThen_panicked_iff, ← applyTransformer_panicked_iff]
    constructor
    · intro h
      rcases h with hpanic | ⟨e', -, hlater⟩
      · exact hpanic
      · exact absurd hlater (hlast e')
    · exact .inl
  rw [processSingleEvent, TransformPanics]
  rcases st.applyFilter_cases e with hfilter | hfilter
  · rw [hfilter, Outcome.andThen_kept, hrest]
    simp
  · simp [hfilter]

/-! ## What is sent -/

/-- A batch that has got into the destination's channel. -/
def Obs.sentBatch : Obs → Option (List Event)
  | .processed events delivery =>
    if delivery.answer = .sendFailed then none else some events
  | .deadLettered _ _ | .checkpointMoved _ _ => none

/-- The `ProcessEvents` batches that were sent, in this order. -/
def sentBatches (log : List Obs) : List (List Event) := log.filterMap Obs.sentBatch

/-- What `process_single_event` returns for these events, without the events that it drops. -/
def Stages.outputs (rt : Runtime) (st : Stages) (events : List Event) : List Event :=
  events.filterMap fun e => (st.processSingleEvent rt e).returned.join

/-- The receiver of the destination's channel is there. -/
def Choice.ChannelOpen (c : Choice) : Prop := ∀ events, (c.delivery events).answer ≠ .sendFailed

theorem Stages.outputs_append (rt : Runtime) (st : Stages) (events events' : List Event) :
    st.outputs rt (events ++ events') = st.outputs rt events ++ st.outputs rt events' :=
  List.filterMap_append

theorem Stages.outputs_singleton (rt : Runtime) (st : Stages) (e : Event) :
    st.outputs rt [e] = (st.processSingleEvent rt e).returned.join.toList := by
  unfold outputs
  rw [List.filterMap_cons]
  cases (st.processSingleEvent rt e).returned.join <;> rfl

theorem sentBatches_observe (w : World) (o : Obs) :
    sentBatches (w.observe o).log = sentBatches w.log ++ o.sentBatch.toList := by
  unfold sentBatches
  show List.filterMap Obs.sentBatch (w.log ++ [o]) = _
  rw [List.filterMap_append, List.filterMap_cons]
  cases o.sentBatch <;> rfl

namespace PipelineOrchestrator

theorem sentBatches_frame {c : Choice} {w : World} {o : Op} (h : ¬ o.Within [.sends]) :
    sentBatches (w.exec c o).2.log = sentBatches w.log := by
  have hrecord : ∀ o : Obs, o.sentBatch = none →
      ∀ v : World, sentBatches (v.observe o).log = sentBatches v.log := by
    intro o ho v
    rw [sentBatches_observe, ho]
    exact List.append_nil _
  cases o with
  | processEvents => simp [Op.Within, Op.effect] at h
  | storeDeadLetter entry source =>
    exact World.call_eq (fun v => sentBatches v.log) (hrecord _ rfl _)
  | setCheckpoint taskId position => exact hrecord _ rfl _
  | _ => exact congrArg sentBatches (World.log_frame (by simp [Op.Within, Op.effect]))

variable {P : Choice → Prop} {task : TaskParams}

theorem settleStandard_only (batch : List Event) (answer : Answer) :
    (settleStandard task batch answer).Only (Op.Within [.books, .deadLetters, .moves]) := by
  cases answer with
  | response response =>
    apply Prog.only_bind
    · intro _
      unfold moveCheckpoint
      split
      · exact Prog.only_perform.mpr (by simp [Op.Within, Op.effect])
      · trivial
    · exact Prog.only_ite trivial (handOver_only (by decide) (by decide)
        (fun _ _ => by simp [Op.Within, Op.effect]) response.errors batch)
  | error | dropped | sendFailed => trivial

/-- A batch is sent once, and nothing of it is left. -/
theorem wp_processBatchStandard_sends (hopen : ∀ c, P c → c.ChannelOpen) (batch : List Event)
    (w : World) :
    wp World.handler P (fun _ => True) (processBatchStandard task batch)
      (fun r v => sentBatches v.log = sentBatches w.log ++ [batch] ∧
        ∀ left, r = .ok left → left = []) w := by
  refine ⟨trivial, fun c hc => ?_⟩
  have hsent : sentBatches (w.observe (.processed batch (c.delivery batch))).log =
      sentBatches w.log ++ [batch] := by
    rw [sentBatches_observe, Obs.sentBatch, if_neg (hopen c hc batch)]
    rfl
  have hsettle : wp World.handler P (fun _ => True)
      (settleStandard task batch (c.delivery batch).answer)
      (fun _ v => sentBatches v.log = sentBatches w.log ++ [batch])
      (w.observe (.processed batch (c.delivery batch))) := by
    have hframe : ∀ o c' v, Op.Within [.books, .deadLetters, .moves] o → P c' →
        sentBatches v.log = sentBatches w.log ++ [batch] →
        sentBatches (World.handler.exec o c' v).2.log = sentBatches w.log ++ [batch] := by
      intro o c' v ho _ hv
      rw [World.handler_exec, sentBatches_frame (ho.not (by decide)), hv]
    exact (wp_only hframe (settleStandard_only batch _) hsent).mono (fun _ _ => trivial)
      fun _ _ _ hv => hv
  show wp World.handler P _ ((settleStandard task batch (c.delivery batch).answer).bind _) _
    (w.observe (.processed batch (c.delivery batch)))
  refine wp.bind hsettle ?_ ?_
  · intro _ v _ hv
    refine ⟨trivial, hv, ?_⟩
    intro left hleft
    cases hleft
    rfl
  · intro fault v _ hv
    refine ⟨hv, ?_⟩
    intro left hleft
    cases hleft

end PipelineOrchestrator

/-! ## One turn of the loop -/

open PipelineOrchestrator

/-- What a turn does to the batch. -/
inductive StreamTurn (params : EventStreamParams) (s : StreamState) (arm : Arm) (s' : StreamState) :
    Prop
  /-- the batch is gone with the task -/
  | panics {e : Event} (harm : arm = .event (.ok e))
      (hpanics : params.stages.TransformPanics params.rt e)
      (h : s' = ⟨s.world, [], s.received ++ [e], false⟩)
  | waits (hsent : sentBatches s'.world.log = sentBatches s.world.log)
      (hreceived : s'.received = s.received ++ arm.received)
      (hbatch : s'.batch = s.batch ++ params.stages.outputs params.rt arm.received)
      (hsize : s'.batch = s.batch ∨ s'.batch.length < params.batchSize)
      (hrunning : s'.running = false → s'.batch = [])
  | sends (hsent : sentBatches s'.world.log =
        sentBatches s.world.log ++ [s.batch ++ params.stages.outputs params.rt arm.received])
      (hreceived : s'.received = s.received ++ arm.received) (hbatch : s'.batch = [])
      (hsome : s.batch ++ params.stages.outputs params.rt arm.received ≠ [])

variable {params : EventStreamParams} {P : Choice → Prop} {s s' : StreamState}

theorem StreamTurn.received {arm : Arm} (h : StreamTurn params s arm s') :
    s'.received = s.received ++ arm.received := by
  cases h with
  | panics harm _ h =>
    rw [h, harm]
    rfl
  | waits _ hreceived => exact hreceived
  | sends _ hreceived => exact hreceived

/-- The turns that process a batch. -/
theorem streamTurn_sends {arm : Arm} {batch : List Event} {goesOn : Bool} {w : World}
    {r : Except Fault (List Event × Bool)} (hstandard : params.task.atLeastOnce = none)
    (hopen : ∀ c, P c → c.ChannelOpen)
    (hbatch : batch = s.batch ++ params.stages.outputs params.rt arm.received) (hne : batch ≠ [])
    (hr : Runs World.handler P
      ((processBatch params.task batch).bind fun left => pure (left, goesOn)) s.world r w) :
    StreamTurn params s arm (s.after arm w r) := by
  have hwp : wp World.handler P (fun _ => True)
      ((processBatch params.task batch).bind fun left => pure (left, goesOn))
      (fun r v => sentBatches v.log = sentBatches s.world.log ++ [batch] ∧
        ∀ left goesOn', r = .ok (left, goesOn') → left = []) s.world := by
    rw [processBatch, if_neg hne, hstandard]
    refine wp.bind (wp_processBatchStandard_sends hopen batch s.world) ?_ ?_
    · intro left v _ hv
      refine ⟨trivial, hv.1, ?_⟩
      intro left' goesOn' heq
      cases heq
      exact hv.2 left rfl
    · intro fault v _ hv
      refine ⟨hv.1, ?_⟩
      intro left goesOn' heq
      cases heq
  obtain ⟨hsent, hleft⟩ := (wp_iff.mp hwp).2 r w hr
  rw [hbatch] at hsent hne
  cases r with
  | ok left => exact .sends hsent rfl (hleft left.1 left.2 rfl) hne
  | error fault => exact .sends hsent rfl rfl hne

/-- The turns that leave the batch. -/
theorem streamTurn_waits {arm : Arm} {w : World} {r : Except Fault (List Event × Bool)}
    (harm : params.stages.outputs params.rt arm.received = [])
    (hr : r = .ok (s.batch, true) ∧ w = s.world) : StreamTurn params s arm (s.after arm w r) := by
  obtain ⟨rfl, rfl⟩ := hr
  refine .waits rfl rfl ?_ (.inl rfl) ?_
  · rw [harm]
    exact (List.append_nil _).symm
  · intro hstopped
    cases hstopped

/-- The turns that process what waits in the batch. -/
theorem streamTurn_pending {arm : Arm} {goesOn : Bool} {w : World}
    {r : Except Fault (List Event × Bool)} (hstandard : params.task.atLeastOnce = none)
    (hopen : ∀ c, P c → c.ChannelOpen) (harm : arm.received = [])
    (hr : Runs World.handler P
      ((processPending params.task s.batch).bind fun left => pure (left, goesOn)) s.world r w) :
    StreamTurn params s arm (s.after arm w r) := by
  have hnone : params.stages.outputs params.rt arm.received = [] := by
    rw [harm]
    rfl
  have hbatch : s.batch = s.batch ++ params.stages.outputs params.rt arm.received := by
    rw [hnone, List.append_nil]
  by_cases hne : s.batch = []
  · rw [processPending, if_pos hne] at hr
    obtain ⟨rfl, rfl⟩ := hr
    exact .waits rfl rfl hbatch (.inl rfl) fun _ => hne
  · rw [processPending, if_neg hne] at hr
    exact streamTurn_sends hstandard hopen hbatch hne hr

/-- An event on which a stage panics ends the task. -/
theorem streamMachine_panics {e : Event} (hpanics : params.stages.TransformPanics params.rt e)
    (hs : (streamMachine params P).step s (.event (.ok e)) s') :
    s' = ⟨s.world, [], s.received ++ [e], false⟩ := by
  obtain ⟨-, r, w, hr, rfl⟩ := hs
  simp only [processEventStreamTurn, Stages.processSingleEvent_panicked_iff.mpr hpanics] at hr
  obtain ⟨rfl, rfl⟩ := hr
  rfl

theorem streamMachine_step_cases {arm : Arm} (hstandard : params.task.atLeastOnce = none)
    (hopen : ∀ c, P c → c.ChannelOpen) (hs : (streamMachine params P).step s arm s') :
    StreamTurn params s arm s' := by
  have hstep := hs
  obtain ⟨-, r, w, hr, rfl⟩ := hs
  cases arm with
  | tick => exact streamTurn_pending hstandard hopen rfl hr
  | shutdown requested =>
    cases requested with
    | true => exact streamTurn_pending hstandard hopen rfl hr
    | false => exact streamTurn_waits rfl hr
  | event received =>
    cases received with
    | error e => exact streamTurn_waits rfl hr
    | ok e =>
      have houtputs := Stages.outputs_singleton params.rt params.stages e
      cases hevent : params.stages.processSingleEvent params.rt e with
      | kept processed =>
        rw [hevent] at houtputs
        simp only [processEventStreamTurn, hevent] at hr
        split at hr
        · refine streamTurn_sends hstandard hopen ?_ (by simp) hr
          show _ = s.batch ++ params.stages.outputs params.rt [e]
          rw [houtputs]
          rfl
        -- below the size limit the event waits
        · next hsize =>
          obtain ⟨rfl, rfl⟩ := hr
          refine .waits rfl rfl ?_ (.inr (Nat.lt_of_not_le hsize)) ?_
          · show _ = s.batch ++ params.stages.outputs params.rt [e]
            rw [houtputs]
            rfl
          · intro hstopped
            cases hstopped
      | dropped =>
        rw [hevent] at houtputs
        simp only [processEventStreamTurn, hevent] at hr
        exact streamTurn_waits houtputs hr
      | failed err =>
        rw [hevent] at houtputs
        simp only [processEventStreamTurn, hevent] at hr
        exact streamTurn_waits houtputs hr
      | panicked =>
        have hpanics := Stages.processSingleEvent_panicked_iff.mp hevent
        exact .panics rfl hpanics (streamMachine_panics hpanics hstep)

end MeiliBridge
