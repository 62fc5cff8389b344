import MeiliBridge.Lib.Trans
import MeiliBridge.Orchestrator.AtLeastOnce
import MeiliBridge.Pipeline.Positions

/-!
# The event stream of a task without at-least-once delivery

`process_event_stream` waits for the next event, a tick of the batch timer or a change of the
shutdown flag, and does one thing at a time: `processEventStreamTurn`. Between the turns only the
batch is kept. The standard path of `process_batch` clears it whatever the destination answered, and
moves the in-memory checkpoint to the last position of any response.

`AccountedMove` is the law for the moves of the checkpoint: every event received so far at or before
the new position was dropped by a decision of the stages, written by the destination, or stored in
the dead letter queue.
-/

set_option autoImplicit false

namespace MeiliBridge

open Interaction Trans

/-- `EventStreamParams`: the stages, the size limit of a batch, and what `process_batch` gets. -/
structure EventStreamParams where
  rt : Runtime
  stages : Stages
  batchSize : Nat
  task : TaskParams

/-- What the loop finds when it waits. -/
inductive Arm where
  | event (received : Result Event)
  | tick
  | shutdown (requested : Bool)

/-- The event of an arm. -/
def Arm.received : Arm → List Event
  | .event (.ok e) => [e]
  | .event (.error _) | .tick | .shutdown _ => []

namespace PipelineOrchestrator

/-- `process_batch`, if there is anything in the batch. -/
def processPending (task : TaskParams) (eventBatch : List Event) : TaskProg (List Event) :=
  if eventBatch = [] then pure eventBatch else processBatch task eventBatch

/-- One turn of the loop of `process_event_stream`: the batch after it, and whether the loop goes
on. -/
def processEventStreamTurn (params : EventStreamParams) (eventBatch : List Event) :
    Arm → TaskProg (List Event × Bool)
  | .event (.ok event) =>
    match params.stages.processSingleEvent params.rt event with
    | .kept processed =>
      if params.batchSize ≤ (eventBatch ++ [processed]).length then do
        let eventBatch ← processBatch params.task (eventBatch ++ [processed])
        pure (eventBatch, true)
      else pure (eventBatch ++ [processed], true)
    | .dropped | .failed _ => pure (eventBatch, true)
    | .panicked => .fail .panic
  -- "Error receiving event" is logged
  | .event (.error _) => pure (eventBatch, true)
  | .tick => do
    let eventBatch ← processPending params.task eventBatch
    pure (eventBatch, true)
  | .shutdown true => do
    let eventBatch ← processPending params.task eventBatch
    pure (eventBatch, false)
  | .shutdown false => pure (eventBatch, true)

end PipelineOrchestrator

/-! ## The machine -/

structure StreamState where
  world : World
  batch : List Event
  /-- every event received from the stream -/
  received : List Event
  running : Bool

/-- After a turn; a panic ends the task. -/
def StreamState.after (s : StreamState) (arm : Arm) (w : World) :
    Except Fault (List Event × Bool) → StreamState
  | .ok (batch, running) => ⟨w, batch, s.received ++ arm.received, running⟩
  | .error _ => ⟨w, [], s.received ++ arm.received, false⟩

/-- The loop, in surroundings all of whose choices meet `P`. -/
def streamMachine (params : EventStreamParams) (P : Choice → Prop) : Machine StreamState Arm where
  init s := s.batch = [] ∧ s.received = [] ∧ s.running = true
  step s arm s' := s.running = true ∧ ∃ r w,
    Runs World.handler P
      (PipelineOrchestrator.processEventStreamTurn params s.batch arm) s.world r w ∧
      s' = s.after arm w r

/-! ## The law -/

/-- The destination has written the event, or the dead letter queue has it. -/
def Delivered (taskId : String) (log : List Obs) (e : Event) : Prop :=
  (∃ events delivery, Obs.processed events delivery ∈ log ∧ e ∈ delivery.written) ∨
    Obs.deadLettered taskId e ∈ log

/-- The stages have decided to drop the event, or what they made of it is delivered. -/
def Handled (params : EventStreamParams) (log : List Obs) (e : Event) : Prop :=
  match params.stages.processSingleEvent params.rt e with
  | .kept processed => Delivered params.task.taskId log processed
  | .dropped => True
  | .failed _ | .panicked => False

/-- If the checkpoint moves between `s` and `s'`, every event received at or before its new position
was handled before. -/
def AccountedMove (params : EventStreamParams) (s s' : StreamState) : Prop :=
  ∀ before after position,
    s'.world.log = before ++ .checkpointMoved params.task.taskId position :: after →
    s.world.log <+: before → ∀ e ∈ s'.received, ∀ q, extractPositionFromEvent e = some q →
      position.AtOrAfter q → Handled params before e

/-- No stage fails on an event with a position. -/
def StagesDecide (params : EventStreamParams) (_ : StreamState) : Arm → Prop
  | .event (.ok e) => extractPositionFromEvent e ≠ none →
      ∀ err, params.stages.processSingleEvent params.rt e ≠ .failed err
  | .event (.error _) | .tick | .shutdown _ => True

/-- A batch with a position is answered with a response; the events with a position that the
destination has not written are among the first events of the batch, one for each error, of a
response that reports failures, and the task has a dead letter queue, which takes them. -/
structure LosesNothing (task : TaskParams) (c : Choice) : Prop where
  answered : ∀ events, (∃ e ∈ events, extractPositionFromEvent e ≠ none) →
    ∃ r, (c.delivery events).answer = .response r ∧
      ∀ e ∈ events, extractPositionFromEvent e ≠ none → e ∉ (c.delivery events).written →
        task.deadLetterQueue = true ∧ r.failedCount ≠ 0 ∧ e ∈ events.take r.errors.length
  stored : c.deadLetter.takesEffect = true

/-! ## What one batch leaves in the log -/

/-- The checkpoint does not move. -/
def NoMove (obs : List Obs) : Prop :=
  ∀ o ∈ obs, ∀ taskId position, o ≠ .checkpointMoved taskId position

theorem NoMove.nil : NoMove [] := by
  intro o ho
  cases ho

/-- A log that ends without a move has no move after `log`. -/
theorem NoMove.not_moved {obs log before after : List Obs} (h : NoMove obs) {taskId : String}
    {position : Position} (hlog : log ++ obs = before ++ .checkpointMoved taskId position :: after)
    (hbefore : log <+: before) : False := by
  obtain ⟨rest, rfl⟩ := hbefore
  rw [List.append_assoc, List.append_cancel_left_eq] at hlog
  exact h _ (hlog ▸ by simp) taskId position rfl

theorem NoMove.cons {o : Obs} {obs : List Obs} (h : NoMove obs)
    (ho : ∀ taskId position, o ≠ .checkpointMoved taskId position) : NoMove (o :: obs) := by
  intro o' hmem
  rcases List.mem_cons.mp hmem with rfl | hobs
  · exact ho
  · exact h o' hobs

/-- The log after a batch: no move of the checkpoint before everything with a position is
delivered. -/
inductive Settles (task : TaskParams) (batch : List Event) (log : List Obs) :
    Except Fault (List Event) → List Obs → Prop
  | failed {obs : List Obs} (fault : Fault) (hquiet : NoMove obs) :
      Settles task batch log (.error fault) (log ++ obs)
  | settled {obs : List Obs} (hquiet : NoMove obs)
      (hdelivered : ∀ e ∈ batch, extractPositionFromEvent e ≠ none →
        Delivered task.taskId (log ++ obs) e) (position : Option Position) :
      Settles task batch log (.ok [])
        (log ++ obs ++ (position.map (.checkpointMoved task.taskId)).toList)

section Batch

open PipelineOrchestrator

variable {P : Choice → Prop} {task : TaskParams}

theorem wp_convertToModelsEvent (e : Event) (w : World) :
    wp World.handler P (fun _ => True) (convertToModelsEvent e) (fun _ v => v.log = w.log) w := by
  have honly : (convertToModelsEvent e).Only (Op.Within [.books, .saves, .deletes]) :=
    convertToModelsEvent_only (by decide) (by decide) e
  exact (wp_untouched honly w).mono (fun _ _ => trivial) fun _ _ _ hv => hv.log

theorem log_storeDeadLetter {c : Choice} (hstored : c.deadLetter.takesEffect = true) (w : World)
    (entry : DeadLetterEntry) (source : Event) :
    (w.exec c (.storeDeadLetter entry source)).2.log =
      w.log ++ [.deadLettered entry.taskId source] := by
  show (c.deadLetter.call w _).2.log = _
  rw [Reply.call_snd, if_pos hstored]
  rfl

/-- The i-th error of a response files the i-th event of the batch. -/
theorem wp_deadLetterFailed (hstored : ∀ c, P c → c.deadLetter.takesEffect = true) (taskId : String)
    (errors : List String) (events : List Event) (w : World) :
    wp World.handler P (fun _ => True) (deadLetterFailed taskId errors events)
      (fun r v => ∃ obs, v.log = w.log ++ obs ∧ NoMove obs ∧
        (r = .ok () → ∀ e ∈ events.take errors.length, Obs.deadLettered taskId e ∈ obs)) w := by
  induction errors generalizing events w with
  | nil => exact ⟨trivial, [], by simp, .nil, by simp⟩
  | cons error errors ih =>
    cases events with
    | nil => exact ⟨trivial, [], by simp, .nil, by simp⟩
    | cons e events =>
      refine wp.bind (wp_convertToModelsEvent e w) ?_ ?_
      · intro converted w₁ _ hw₁
        -- the entry's identifier and its time are asked for before it is stored
        refine ⟨trivial, fun _ _ => ⟨trivial, fun _ _ => ⟨trivial, fun c hc => ?_⟩⟩⟩
        refine (ih events _).mono (fun _ _ => trivial) ?_
        intro r v _ hv
        obtain ⟨obs, hobs, hquiet, hstoredAll⟩ := hv
        refine ⟨.deadLettered taskId e :: obs, ?_, hquiet.cons nofun, ?_⟩
        · rw [hobs, ← List.singleton_append, ← List.append_assoc, ← hw₁]
          exact congrArg (· ++ obs) (log_storeDeadLetter (hstored c hc) _ _ e)
        · intro hr e' he'
          rcases List.mem_cons.mp he' with rfl | hmem
          · exact List.mem_cons_self
          · exact List.mem_cons_of_mem _ (hstoredAll hr e' hmem)
      · intro err w₁ _ hw₁
        exact ⟨[], by simpa using hw₁, .nil, nofun⟩

/-- What the failures of a response bring into the dead letter queue. -/
theorem wp_handOverFailed (task : TaskParams) (hstored : ∀ c, P c → c.deadLetter.takesEffect = true)
    (batch : List Event) (response : DestinationResponse) (w : World) :
    wp World.handler P (fun _ => True) (handOverFailed task batch response)
      (fun r v => ∃ obs, v.log = w.log ++ obs ∧ NoMove obs ∧
        (r = .ok () → task.deadLetterQueue = true → response.failedCount ≠ 0 →
          ∀ e ∈ batch.take response.errors.length, Obs.deadLettered task.taskId e ∈ obs)) w := by
  unfold handOverFailed
  split
  · next hcount => exact ⟨trivial, [], by simp, .nil, fun _ _ hfailed => absurd hcount hfailed⟩
  · unfold handOver
    split
    · refine (wp_deadLetterFailed hstored task.taskId response.errors batch w).mono
        (fun _ h => h) ?_
      intro r v _ hv
      obtain ⟨obs, hobs, hquiet, hall⟩ := hv
      exact ⟨obs, hobs, hquiet, fun hr _ _ => hall hr⟩
    · next hqueue => exact ⟨trivial, [], by simp, .nil, fun _ h => absurd h hqueue⟩

/-- The answer to a batch: what stays to be shown is that everything with a position is delivered
once the failures are handed over. -/
theorem wp_settleStandard (task : TaskParams) (hstored : ∀ c, P c → c.deadLetter.takesEffect = true)
    (batch : List Event) (answer : Answer) (w : World) :
    wp World.handler P (fun _ => True) (settleStandard task batch answer)
      (fun r v => ∃ obs, NoMove obs ∧ ((∃ fault, r = .error fault ∧ v.log = w.log ++ obs) ∨
        r = .ok () ∧ (∀ response, answer = .response response → task.deadLetterQueue = true →
          response.failedCount ≠ 0 →
          ∀ e ∈ batch.take response.errors.length, Obs.deadLettered task.taskId e ∈ obs) ∧
        ∃ position : Option Position,
          v.log = w.log ++ obs ++ (position.map (.checkpointMoved task.taskId)).toList)) w := by
  cases answer with
  | response response =>
    refine wp.bind (wp_handOverFailed task hstored batch response w) ?_ ?_
    · intro _ w₁ _ hw₁
      obtain ⟨obs, hobs, hquiet, hall⟩ := hw₁
      unfold moveCheckpoint
      split
      · next position _ =>
        refine ⟨trivial, fun c _ => ⟨trivial, obs, hquiet, .inr ⟨rfl, ?_, some position, ?_⟩⟩⟩
        · intro r hr
          cases hr
          exact hall rfl
        · show w₁.log ++ _ = _
          rw [hobs]
          rfl
      · refine ⟨trivial, obs, hquiet, .inr ⟨rfl, ?_, none, ?_⟩⟩
        · intro r hr
          cases hr
          exact hall rfl
        · simpa using hobs
    · intro fault w₁ _ hw₁
      obtain ⟨obs, hobs, hquiet, -⟩ := hw₁
      exact ⟨obs, hquiet, .inl ⟨fault, rfl, hobs⟩⟩
  -- the batch is gone and the checkpoint stays
  | error | dropped | sendFailed =>
    exact ⟨trivial, [], .nil, .inr ⟨rfl, nofun, none, by simp⟩⟩

/-- **One batch on the standard path**, in surroundings that lose nothing. -/
theorem wp_processBatchStandard (hP : ∀ c, P c → LosesNothing task c) (batch : List Event)
    (w : World) :
    wp World.handler P (fun _ => True) (processBatchStandard task batch)
      (fun r v => Settles task batch w.log r v.log) w := by
  refine ⟨trivial, fun c hc => ?_⟩
  have hlost := hP c hc
  have hsent : ∀ obs, NoMove obs → NoMove (.processed batch (c.delivery batch) :: obs) := by
    intro obs hquiet
    exact hquiet.cons nofun
  show wp World.handler P _ ((settleStandard task batch (c.delivery batch).answer).bind _) _
    (w.observe (.processed batch (c.delivery batch)))
  refine wp.bind (wp_settleStandard task (fun c' hc' => (hP c' hc').stored) batch
    (c.delivery batch).answer (w.observe (.processed batch (c.delivery batch)))) ?_ ?_
  · intro _ v _ hv
    obtain ⟨obs, hquiet, ⟨fault, hr, -⟩ | ⟨-, hall, position, hlog⟩⟩ := hv
    · cases hr
    · have hlog' : v.log = w.log ++ (.processed batch (c.delivery batch) :: obs) ++
          (position.map (.checkpointMoved task.taskId)).toList := by
        rw [hlog, ← List.singleton_append, ← List.append_assoc w.log]
        rfl
      refine ⟨trivial, ?_⟩
      show Settles task batch w.log _ v.log
      rw [hlog']
      refine .settled (hsent obs hquiet) ?_ position
      intro e he hposition
      obtain ⟨response, hanswer, hrest⟩ := hlost.answered batch ⟨e, he, hposition⟩
      -- an event with a position is written or it waits in the dead letter queue
      by_cases hwritten : e ∈ (c.delivery batch).written
      · exact .inl ⟨batch, c.delivery batch, by simp, hwritten⟩
      · obtain ⟨hqueue, hcount, htake⟩ := hrest e he hposition hwritten
        refine .inr (List.mem_append_right _ (List.mem_cons_of_mem _ ?_))
        exact hall response hanswer hqueue hcount e htake
  · intro fault v _ hv
    obtain ⟨obs, hquiet, ⟨fault', hr, hlog⟩ | ⟨hr, -⟩⟩ := hv
    · have hlog' : v.log = w.log ++ (.processed batch (c.delivery batch) :: obs) := by
        rw [hlog, ← List.singleton_append, ← List.append_assoc w.log]
        rfl
      rw [hlog']
      exact .failed _ (hsent obs hquiet)
    · cases hr

end Batch

/-! ## The invariant of the loop -/

variable {params : EventStreamParams} {P : Choice → Prop} {s s' : StreamState}

theorem Delivered.mono {taskId : String} {log log' : List Obs} {e : Event}
    (h : Delivered taskId log e) (hlog : log <+: log') : Delivered taskId log' e := by
  rcases h with ⟨events, delivery, hmem, hwritten⟩ | hmem
  · exact .inl ⟨events, delivery, hlog.subset hmem, hwritten⟩
  · exact .inr (hlog.subset hmem)

theorem Handled.mono {log log' : List Obs} {e : Event} (h : Handled params log e)
    (hlog : log <+: log') : Handled params log' e := by
  unfold Handled at h ⊢
  split
  · next hkept =>
    rw [hkept] at h
    exact Delivered.mono h hlog
  · trivial
  · next hfailed => simp [hfailed] at h
  · next hpanicked => simp [hpanicked] at h

/-- The event is handled, or the batch has what the stages made of it. -/
def Accounted (params : EventStreamParams) (log : List Obs) (batch : List Event) (e : Event) :
    Prop :=
  Handled params log e ∨
    ∃ processed ∈ batch, params.stages.processSingleEvent params.rt e = .kept processed

/-- While the loop runs, every event received with a position is handled or in the batch. -/
def StreamInv (params : EventStreamParams) (s : StreamState) : Prop :=
  s.running = true → ∀ e ∈ s.received, extractPositionFromEvent e ≠ none →
    Accounted params s.world.log s.batch e

/-- What a program does to the received events: if it ends with a batch, they are accounted for, and
before any move of the checkpoint they are handled. -/
structure Keeps (params : EventStreamParams) (received : List Event) (log : List Obs)
    (left : Option (List Event)) (log' : List Obs) : Prop where
  accounted : ∀ batch, left = some batch → ∀ e ∈ received, extractPositionFromEvent e ≠ none →
    Accounted params log' batch e
  moves : ∀ before after position,
    log' = before ++ .checkpointMoved params.task.taskId position :: after → log <+: before →
    ∀ e ∈ received, extractPositionFromEvent e ≠ none → Handled params before e

theorem Settles.keeps {batch received : List Event} {log log' : List Obs}
    {r : Except Fault (List Event)} (h : Settles params.task batch log r log')
    (hreceived : ∀ e ∈ received, extractPositionFromEvent e ≠ none →
      Accounted params log batch e) : Keeps params received log r.toOption log' := by
  cases h with
  | failed fault hquiet =>
    refine ⟨nofun, ?_⟩
    intro before after position hlog hbefore
    exact (hquiet.not_moved hlog hbefore).elim
  | @settled obs hquiet hdelivered moved =>
    have hhandled : ∀ e ∈ received, extractPositionFromEvent e ≠ none →
        Handled params (log ++ obs) e := by
      intro e he hposition
      rcases hreceived e he hposition with hold | ⟨processed, hmem, hkept⟩
      · exact hold.mono (List.prefix_append _ _)
      · unfold Handled
        rw [hkept]
        refine hdelivered processed hmem ?_
        rwa [Stages.extractPosition_processSingleEvent hkept]
    refine ⟨?_, ?_⟩
    · intro left _ e he hposition
      exact .inl ((hhandled e he hposition).mono (List.prefix_append _ _))
    · intro before after position hlog hbefore e he hposition
      cases moved with
      | none =>
        rw [Option.map_none, Option.toList_none, List.append_nil] at hlog
        exact (hquiet.not_moved hlog hbefore).elim
      | some p =>
        rw [Option.map_some, Option.toList_some] at hlog
        -- the move is the last entry of the log
        rcases List.eq_nil_or_concat after with rfl | ⟨after', o, rfl⟩
        · obtain ⟨rfl, -⟩ := List.append_inj' hlog rfl
          exact hhandled e he hposition
        · rw [List.concat_eq_append, ← List.cons_append, ← List.append_assoc] at hlog
          obtain ⟨hinit, -⟩ := List.append_inj' hlog rfl
          exact (hquiet.not_moved hinit hbefore).elim

theorem Keeps.refl {batch received : List Event} {log : List Obs}
    (hreceived : ∀ e ∈ received, extractPositionFromEvent e ≠ none →
      Accounted params log batch e) : Keeps params received log (some batch) log := by
  refine ⟨?_, ?_⟩
  · intro left hleft
    cases hleft
    exact hreceived
  · intro before after position hlog hbefore
    rw [← List.append_nil log] at hlog
    exact (NoMove.nil.not_moved hlog hbefore).elim

/-! ## One turn -/

section Turn

open PipelineOrchestrator

theorem wp_processBatch_standard (hstandard : params.task.atLeastOnce = none)
    (hP : ∀ c, P c → LosesNothing params.task c) {received : List Event} {batch : List Event}
    {w : World} (hreceived : ∀ e ∈ received, extractPositionFromEvent e ≠ none →
      Accounted params w.log batch e) :
    wp World.handler P (fun _ => True) (processBatch params.task batch)
      (fun r v => Keeps params received w.log r.toOption v.log) w := by
  unfold processBatch
  split
  · next hnil =>
    subst hnil
    exact ⟨trivial, .refl hreceived⟩
  · rw [hstandard]
    exact (wp_processBatchStandard hP batch w).mono (fun _ h => h) fun _ _ _ h => h.keeps hreceived

theorem wp_processPending (hstandard : params.task.atLeastOnce = none)
    (hP : ∀ c, P c → LosesNothing params.task c) {received : List Event} {batch : List Event}
    {w : World} (hreceived : ∀ e ∈ received, extractPositionFromEvent e ≠ none →
      Accounted params w.log batch e) :
    wp World.handler P (fun _ => True) (processPending params.task batch)
      (fun r v => Keeps params received w.log r.toOption v.log) w := by
  unfold processPending
  split
  · exact ⟨trivial, .refl hreceived⟩
  · exact wp_processBatch_standard hstandard hP hreceived

/-- The rest of a turn only says whether the loop goes on. -/
theorem wp_turn {received : List Event} {p : TaskProg (List Event)} {w : World} {goesOn : Bool}
    (h : wp World.handler P (fun _ => True) p
      (fun r v => Keeps params received w.log r.toOption v.log) w) :
    wp World.handler P (fun _ => True) (p.bind fun batch => pure (batch, goesOn))
      (fun r v => Keeps params received w.log (r.toOption.map Prod.fst) v.log) w := by
  refine wp.bind h ?_ ?_
  · intro batch v _ hv
    exact ⟨trivial, hv⟩
  · intro fault v _ hv
    exact hv

theorem Accounted.push {log : List Obs} {batch : List Event} {e : Event}
    (h : Accounted params log batch e) (processed : Event) :
    Accounted params log (batch ++ [processed]) e := by
  rcases h with hhandled | ⟨e', hmem, hkept⟩
  · exact .inl hhandled
  · exact .inr ⟨e', List.mem_append_left _ hmem, hkept⟩

/-- **One turn of the loop**, in surroundings that lose nothing. -/
theorem wp_processEventStreamTurn (hstandard : params.task.atLeastOnce = none)
    (hP : ∀ c, P c → LosesNothing params.task c) {arm : Arm} (hdecide : StagesDecide params s arm)
    (hreceived : ∀ e ∈ s.received, extractPositionFromEvent e ≠ none →
      Accounted params s.world.log s.batch e) :
    wp World.handler P (fun _ => True) (processEventStreamTurn params s.batch arm)
      (fun r v => Keeps params (s.received ++ arm.received) s.world.log (r.toOption.map Prod.fst)
        v.log) s.world := by
  -- without an event, what was received stays accounted for
  have hsame : ∀ e ∈ s.received ++ [], extractPositionFromEvent e ≠ none →
      Accounted params s.world.log s.batch e := by
    rw [List.append_nil]
    exact hreceived
  cases arm with
  | tick => exact wp_turn (wp_processPending hstandard hP hsame)
  | shutdown requested =>
    cases requested with
    | true => exact wp_turn (wp_processPending hstandard hP hsame)
    | false => exact ⟨trivial, .refl hsame⟩
  | event received =>
    cases received with
    | error err => exact ⟨trivial, .refl hsame⟩
    | ok e =>
      simp only [processEventStreamTurn]
      split
      · next processed hkept =>
        have hpushed : ∀ e' ∈ s.received ++ [e], extractPositionFromEvent e' ≠ none →
            Accounted params s.world.log (s.batch ++ [processed]) e' := by
          intro e' he' hposition
          rcases List.mem_append.mp he' with hold | hnew
          · exact (hreceived e' hold hposition).push processed
          · rcases List.mem_singleton.mp hnew with rfl
            exact .inr ⟨processed, List.mem_append_right _ List.mem_cons_self, hkept⟩
        split
        · exact wp_turn (wp_processBatch_standard hstandard hP hpushed)
        · exact ⟨trivial, .refl hpushed⟩
      -- the stages have dropped the event, which handles it
      · next hdropped =>
        refine ⟨trivial, .refl ?_⟩
        intro e' he' hposition
        rcases List.mem_append.mp he' with hold | hnew
        · exact hreceived e' hold hposition
        · rcases List.mem_singleton.mp hnew with rfl
          left
          unfold Handled
          rw [hdropped]
          trivial
      -- an event that a stage fails on is skipped: the condition lets it have no position
      · next err hfailed =>
        refine ⟨trivial, .refl ?_⟩
        intro e' he' hposition
        rcases List.mem_append.mp he' with hold | hnew
        · exact hreceived e' hold hposition
        · rcases List.mem_singleton.mp hnew with rfl
          exact absurd hfailed (hdecide hposition err)
      · refine ⟨trivial, nofun, ?_⟩
        intro before after position hlog hbefore
        rw [← List.append_nil s.world.log] at hlog
        exact (NoMove.nil.not_moved hlog hbefore).elim

end Turn

/-! ## Runs -/

theorem StreamInv.step (hstandard : params.task.atLeastOnce = none) {arm : Arm}
    (hi : StreamInv params s)
    (hs : ((streamMachine params (LosesNothing params.task)).restrict (StagesDecide params)).step
      s arm s') : StreamInv params s' ∧ AccountedMove params s s' := by
  obtain ⟨hdecide, hrunning, r, w, hr, rfl⟩ := hs
  have hkeeps := (wp_iff.mp
    (wp_processEventStreamTurn hstandard (fun _ h => h) hdecide (hi hrunning))).2 r w hr
  cases r with
  | ok left =>
    obtain ⟨batch, goesOn⟩ := left
    refine ⟨fun _ => hkeeps.accounted batch rfl, ?_⟩
    intro before after position hlog hbefore e he q hq _
    exact hkeeps.moves before after position hlog hbefore e he (by simp [hq])
  | error fault =>
    refine ⟨nofun, ?_⟩
    intro before after position hlog hbefore e he q hq _
    exact hkeeps.moves before after position hlog hbefore e he (by simp [hq])

theorem reachable_streamInv (hstandard : params.task.atLeastOnce = none)
    (h : ((streamMachine params (LosesNothing params.task)).restrict
      (StagesDecide params)).Reachable s) : StreamInv params s := by
  refine h.invariant (I := StreamInv params) ?_ ?_
  · intro s hs _ e he
    rw [hs.2.1] at he
    cases he
  · intro s arm s' hi hs
    exact (hi.step hstandard hs).1

/-- **The standard path loses nothing before its checkpoint**, in every run in which no stage fails
and the surroundings lose nothing that the code cannot hand over. -/
theorem moves_accounted (params : EventStreamParams) (hstandard : params.task.atLeastOnce = none)
    (s s' : StreamState) (arm : Arm)
    (h : ((streamMachine params (LosesNothing params.task)).restrict
      (StagesDecide params)).Reachable s)
    (hs : ((streamMachine params (LosesNothing params.task)).restrict (StagesDecide params)).step
      s arm s') : AccountedMove params s s' :=
  ((reachable_streamInv hstandard h).step hstandard hs).2

/-! ### Two books -/

/-- The state after a turn in which the surroundings decide `c` throughout. -/
def StreamState.turn (params : EventStreamParams) (c : Choice) (arm : Arm) (s : StreamState) :
    StreamState :=
  let (r, w) := eval World.handler c
    (PipelineOrchestrator.processEventStreamTurn params s.batch arm) s.world
  s.after arm w r

theorem streamMachine_turn {c : Choice} (hc : P c) (hrunning : s.running = true) (arm : Arm) :
    (streamMachine params P).step s arm (s.turn params c arm) :=
  ⟨hrunning, _, _, runs_eval hc _ _, rfl⟩

/-- A task without stages, with batches of two events. -/
def booksStream : EventStreamParams :=
  ⟨⟨id, id, ""⟩, ⟨none, none, none, none⟩, 2, ⟨"books", true, none⟩⟩

def booksStarted : StreamState := ⟨freshWorld, [], [], true⟩

/-- A change after `bookInserted`. -/
def bookChanged : Event :=
  .cdc ⟨.update, "books", "public", [("id", .string "b1")], some (.postgreSQL "0/20")⟩

/-- The destination writes everything. -/
def writingAll : Choice :=
  ⟨0, "4f2a", fun _ => .succeeds, .succeeds, fun events =>
    ⟨.response ⟨events.length, 0, some (.postgreSQL "0/20"), []⟩, events⟩⟩

theorem writingAll_losesNothing (task : TaskParams) : LosesNothing task writingAll := by
  refine ⟨?_, rfl⟩
  intro events _
  refine ⟨_, rfl, ?_⟩
  intro e he _ hlost
  exact absurd he hlost

theorem moves_accounted_books : ∃ s s' : StreamState,
    Obs.checkpointMoved "books" (.postgreSQL "0/20") ∈ s'.world.log ∧
      AccountedMove booksStream s s' := by
  have hdecide : ∀ s e, StagesDecide booksStream s (.event (.ok e)) := by
    intro s e _ err hfailed
    cases hfailed
  have h₀ : ((streamMachine booksStream (LosesNothing booksStream.task)).restrict
      (StagesDecide booksStream)).Reachable booksStarted := .init ⟨rfl, rfl, rfl⟩
  have h₁ := h₀.step ⟨hdecide _ bookInserted,
    streamMachine_turn (writingAll_losesNothing _) rfl _⟩
  have h₂ := moves_accounted booksStream rfl _ _ _ h₁ ⟨hdecide _ bookChanged,
    streamMachine_turn (writingAll_losesNothing _) rfl _⟩
  exact ⟨_, _, by decide, h₂⟩

/-- The one call of a batch fails: two documents, and one error. -/
def upsertFails : Choice :=
  answering (.response ⟨0, 3, some (.postgreSQL "0/20"), ["Upsert error: timeout"]⟩)

/-- The second book is neither written nor in the dead letter queue. -/
theorem moves_not_always_accounted : ¬ ∀ (params : EventStreamParams),
    params.task.atLeastOnce = none → ∀ (s s' : StreamState) (arm : Arm),
      (streamMachine params fun _ => True).Reachable s →
      (streamMachine params fun _ => True).step s arm s' → AccountedMove params s s' := by
  intro h
  have h₀ : (streamMachine booksStream fun _ => True).Reachable booksStarted :=
    .init ⟨rfl, rfl, rfl⟩
  have h₁ := h₀.step (streamMachine_turn (c := upsertFails) trivial rfl (.event (.ok bookInserted)))
  have hmove := h booksStream rfl _ _ _ h₁
    (streamMachine_turn (c := upsertFails) trivial rfl (.event (.ok bookChanged)))
  have hhandled := hmove [.processed [bookInserted, bookChanged] (upsertFails.delivery []),
    .deadLettered "books" bookInserted] [] (.postgreSQL "0/20") (by decide) ⟨_, rfl⟩ bookChanged
    (by decide) _ rfl (.inl rfl)
  rcases hhandled with ⟨events, delivery, hmem, hwritten⟩ | hmem
  · rcases List.mem_cons.mp hmem with heq | hmem
    · cases heq
      cases hwritten
    · cases List.mem_singleton.mp hmem
  · revert hmem
    decide

end MeiliBridge
