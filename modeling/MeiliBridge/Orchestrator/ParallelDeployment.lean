import MeiliBridge.Orchestrator.Deployment
import MeiliBridge.Pipeline.ParallelFeed

/-!
# One task with parallel workers

The same task as in `MeiliBridge.Orchestrator.Deployment`, started with parallel processing: a
distributor, the workers, `process_parallel_results`, and the destination processor with everybody
else who sends it commands. Work stealing is left out: with the workers of one table only,
`balance_work` does nothing.

Workers overtake each other, so the events of the task reach the processor in another order than
they had. `index_permutes_stream` is what holds in any case: each operation gets to the index once.
`parallel_agrees` says when nothing else is to be seen of the parallel workers: if no two workers
have events of one document in hand at the same time, the index ends as it does without them.
-/

set_option autoImplicit false

namespace MeiliBridge

open Trans Parallel

structure ParallelDeployment extends Deployment where
  workersPerTable : Nat
  maxConcurrentEvents : Nat
  workStealing : Bool

namespace ParallelDeployment

variable (d : ParallelDeployment)

def config : ParallelConfig where
  rt := d.stream.rt
  tables := 1
  stages _ := d.stream.stages
  workersPerTable := d.workersPerTable
  maxConcurrentEvents := d.maxConcurrentEvents
  workStealing := d.workStealing

/-- `waitsFor` is the place, among all commands sent to the processor, of the one whose answer
`process_parallel_results` waits for. `batches` and `unsent` record the batches that it could send
and those that it could not. -/
structure State where
  distributor : Distributor
  workers : ParallelResults.State
  processor : DestinationProcessor.State
  waitsFor : Option Nat
  batches : List (List Event)
  unsent : List (List Event)

/-- The answer to the batch in hand, once there is one. -/
def State.answer (s : State) : Option Answer :=
  match s.waitsFor with
  | none => some .sendFailed
  | some place =>
    match s.processor.served[place]? with
    | some e => some e.answer
    | none => if s.processor.phase = .stopped then some .dropped else none

inductive Label where
  | distribute (i : Distributor.Input)
  | work (l : Parallel.Label)
  | forward
  | answer (acked : List Nat)
  | processor (l : DestinationProcessor.Label)

/-- The steps of the workers. -/
def IsWork : Parallel.Label → Prop
  | .drain table _ | .acquire table _ | .send table _ => table = 0
  | _ => False

/-- The distributor's call of `enqueue_events`, if it makes one. -/
def Enqueues (workers : ParallelResults.State) : Option (List Event) → ParallelResults.State → Prop
  | none, workers' => workers' = workers
  | some events, workers' =>
    ParallelResults.Step d.config workers (.system (.enqueue 0 events)) workers'

inductive Step : State → Label → State → Prop
  | distribute {s : State} {i : Distributor.Input} {workers : ParallelResults.State}
      (hgoes : s.distributor.stopped = false)
      (henqueues : d.Enqueues s.workers (s.distributor.turn i).2 workers) :
      Step s (.distribute i) { s with distributor := (s.distributor.turn i).1, workers }
  | work {s : State} {l : Parallel.Label} {workers : ParallelResults.State} (hwork : IsWork l)
      (h : ParallelResults.Step d.config s.workers (.system l) workers) :
      Step s (.work l) { s with workers }
  | forward {s : State} {batch : List Tagged} {workers : ParallelResults.State}
      {processor : DestinationProcessor.State}
      (h : ParallelResults.Step d.config s.workers (.system (.forward 0)) workers)
      (hbatch : workers.awaiting 0 = some batch)
      (hsend : DestinationProcessor.Step d.server d.stream.rt d.adapter s.processor
        (.send (.processEvents (batch.map Tagged.event))) processor) :
      Step s .forward
        { s with
          workers, processor
          waitsFor := some s.processor.sent.length
          batches := s.batches ++ [batch.map Tagged.event] }
  | forwardFails {s : State} {batch : List Tagged} {workers : ParallelResults.State}
      (h : ParallelResults.Step d.config s.workers (.system (.forward 0)) workers)
      (hbatch : workers.awaiting 0 = some batch) (hstopped : s.processor.phase = .stopped) :
      Step s .forward
        { s with workers, waitsFor := none, unsent := s.unsent ++ [batch.map Tagged.event] }
  | answer {s : State} {answer : Answer} {acked : List Nat} {workers : ParallelResults.State}
      (hanswer : s.answer = some answer)
      (h : ParallelResults.Step d.config s.workers (.answer 0 answer acked) workers) :
      Step s (.answer acked) { s with workers, waitsFor := none }
  | processor {s : State} {l : DestinationProcessor.Label} {processor : DestinationProcessor.State}
      (hothers : d.FromOthers l)
      (h : DestinationProcessor.Step d.server d.stream.rt d.adapter s.processor l processor) :
      Step s (.processor l) { s with processor }

/-- Everything is started on these documents. -/
structure Starts (initial : Documents) (s : State) : Prop where
  distributor : s.distributor = .start
  workers : ParallelResults.Starts d.config s.workers
  processor : s.processor = ⟨.connecting, [], initial, [], []⟩
  batches : s.batches = []
  unsent : s.unsent = []

def machine (initial : Documents) : Machine State Label where
  init := d.Starts initial
  step := d.Step

/-- The document that a processed event is about. -/
def key (e : Event) : Option String :=
  (d.server.operation d.adapter d.indexName e).map KeyedLog.Op.key

/-- No transformer panics. -/
def Spares (s : State) : Label → Prop
  | .work l => ParallelResults.NoPanic d.config s.workers (.system l)
  | _ => True

/-- No transformer panics, and no worker takes an event for a document of which another worker has
one in hand. -/
def SparesOrder (s : State) (l : Label) : Prop :=
  d.Spares s l ∧
    match l with
    | .work l => ∀ m, s.workers.move (.system l) = some m →
        d.workersPerTable ≤ 1 ∨
          WorkerPool.Apart d.key (ParallelResults.make d.config) s.workers.pool m
    | _ => True

variable {d} {initial : Documents} {s s' : State}

/-! ## The parts -/

theorem fronts (d : ParallelDeployment) (initial : Documents) :
    d.Fronts initial (d.machine initial) State.processor State.batches where
  init s h := ⟨h.processor, h.batches⟩
  step s l s' hs := by
    cases hs with
    | distribute | work | forwardFails | answer =>
      exact .sends (List.append_nil _).symm rfl
    | @forward batch workers processor _ _ hsend =>
      have hsends : d.Sends s.processor ([batch.map Tagged.event].map .processEvents) processor :=
        ⟨processor, hsend, rfl⟩
      exact .sends rfl hsends
    | processor hothers h => exact .others rfl hothers h

/-- The workers run as in `MeiliBridge.Pipeline.ParallelResults`, whatever is asked of their
steps. -/
theorem reachable_workers
    {ok : WorkerPool.Pool Event Event → WorkerPool.Move Event → Prop}
    (hok : ∀ p m, (∀ worker count, m ≠ .take worker count) → ok p m)
    (h : ((d.machine initial).restrict fun s l => d.Spares s l ∧
      match l with
      | .work l => ∀ m, s.workers.move (.system l) = some m → ok s.workers.pool m
      | _ => True).Reachable s) :
    ((WorkerPool.machine (ParallelResults.make d.config) d.workersPerTable).restrict ok).Reachable
      s.workers.pool := by
  refine ParallelResults.reachable_pool ?_
  induction h with
  | init h => exact .init h.workers
  | @step s s' l _ hs ih =>
    obtain ⟨⟨hspares, hmoves⟩, hs⟩ := hs
    cases hs with
    | @distribute i workers hgoes henqueues =>
      cases hcall : (s.distributor.turn i).2 with
      | none =>
        rw [hcall] at henqueues
        -- nothing is enqueued in this turn
        obtain rfl : workers = s.workers := henqueues
        exact ih
      | some events =>
        rw [hcall] at henqueues
        refine ih.step (l := .system (.enqueue 0 events)) ⟨⟨rfl, trivial, ?_⟩, henqueues⟩
        intro m hm
        obtain rfl := Option.some.inj hm
        exact hok _ _ (by intro _ _ h; cases h)
    | @work l workers hwork hstep =>
      have hfirst : ParallelResults.OfFirst (.system l) := by
        cases l with
        | drain | acquire | send => exact hwork
        | enqueue | forward | survey | steal | settle => exact absurd hwork id
      exact ih.step ⟨⟨hfirst, hspares, hmoves⟩, hstep⟩
    | forward hstep | forwardFails hstep =>
      refine ih.step (l := .system (.forward 0)) ⟨⟨rfl, trivial, ?_⟩, hstep⟩
      intro m hm
      obtain rfl := Option.some.inj hm
      exact hok _ _ (by intro _ _ h; cases h)
    | @answer answer acked workers _ hstep =>
      refine ih.step (l := .answer 0 answer acked) ⟨⟨rfl, trivial, ?_⟩, hstep⟩
      intro m hm
      cases hm
    -- the destination processor is not one of the workers
    | processor => exact ih

/-! ## The wires between them -/

structure Wired (s : State) : Prop where
  law : s.distributor.Law
  entered : s.workers.enqueued.map Prod.snd = s.distributor.enqueued
  fetched : s.unsent = [] → s.workers.system.delivered.map Tagged.event = s.batches.flatten

theorem enqueued_of_enqueues {workers workers' : ParallelResults.State}
    {call : Option (List Event)} (h : d.Enqueues workers call workers') :
    workers'.enqueued.map Prod.snd = workers.enqueued.map Prod.snd ++ call.getD [] ∧
      workers'.system.delivered = workers.system.delivered := by
  cases call with
  | none =>
    obtain rfl : workers' = workers := h
    exact ⟨(List.append_nil _).symm, rfl⟩
  | some events =>
    refine ⟨ParallelResults.enqueued_step h, ?_⟩
    exact (ParallelResults.delivered_step h).trans (List.append_nil _)

theorem ends_of_work {workers workers' : ParallelResults.State} {l : Parallel.Label}
    (hwork : IsWork l) (h : ParallelResults.Step d.config workers (.system l) workers') :
    workers'.enqueued.map Prod.snd = workers.enqueued.map Prod.snd ∧
      workers'.system.delivered = workers.system.delivered := by
  have henqueued := ParallelResults.enqueued_step h
  have hdelivered := ParallelResults.delivered_step h
  cases l with
  | drain | acquire | send =>
    exact ⟨henqueued.trans (List.append_nil _), hdelivered.trans (List.append_nil _)⟩
  | enqueue | forward | survey | steal | settle => exact absurd hwork id

/-- A batch is taken off the channel of results. -/
theorem ends_of_forward {workers workers' : ParallelResults.State} {batch : List Tagged}
    (h : ParallelResults.Step d.config workers (.system (.forward 0)) workers')
    (hbatch : workers'.awaiting 0 = some batch) :
    workers'.enqueued.map Prod.snd = workers.enqueued.map Prod.snd ∧
      workers'.system.delivered = workers.system.delivered ++ batch := by
  have hdelivered := ParallelResults.delivered_step h
  rw [ParallelResults.forwardedBy, hbatch] at hdelivered
  exact ⟨(ParallelResults.enqueued_step h).trans (List.append_nil _), hdelivered⟩

theorem Wired.step {l : Label} (hi : Wired s) (hs : d.Step s l s') : Wired s' := by
  cases hs with
  -- the worker runs change the two ends of the workers, the distributor only the near one
  | @distribute i workers hgoes henqueues =>
    obtain ⟨hentered, hdelivered⟩ := enqueued_of_enqueues henqueues
    refine ⟨hi.law.turn hgoes i, ?_, ?_⟩
    · show workers.enqueued.map Prod.snd = (s.distributor.turn i).1.enqueued
      rw [hentered, hi.entered, Distributor.enqueued_turn]
    · intro hunsent
      show workers.system.delivered.map Tagged.event = s.batches.flatten
      rw [hdelivered]
      exact hi.fetched hunsent
  | @work l workers hwork h =>
    obtain ⟨hentered, hdelivered⟩ := ends_of_work hwork h
    refine ⟨hi.law, hentered.trans hi.entered, ?_⟩
    intro hunsent
    show workers.system.delivered.map Tagged.event = s.batches.flatten
    rw [hdelivered]
    exact hi.fetched hunsent
  | @forward batch workers processor h hbatch hsend =>
    obtain ⟨hentered, hdelivered⟩ := ends_of_forward h hbatch
    refine ⟨hi.law, hentered.trans hi.entered, ?_⟩
    intro hunsent
    show workers.system.delivered.map Tagged.event = (s.batches ++ [_]).flatten
    rw [hdelivered, List.map_append, hi.fetched hunsent]
    simp
  | @forwardFails batch workers h hbatch hstopped =>
    obtain ⟨hentered, -⟩ := ends_of_forward h hbatch
    refine ⟨hi.law, hentered.trans hi.entered, ?_⟩
    intro hunsent
    -- a batch that could not be sent is the one case in which the far end is behind
    exact absurd hunsent (List.append_ne_nil_of_right_ne_nil _ (List.cons_ne_nil _ _))
  | @answer answer acked workers hanswer h =>
    have hentered := (ParallelResults.enqueued_step h).trans (List.append_nil _)
    have hdelivered := (ParallelResults.delivered_step h).trans (List.append_nil _)
    refine ⟨hi.law, hentered.trans hi.entered, ?_⟩
    intro hunsent
    show workers.system.delivered.map Tagged.event = s.batches.flatten
    rw [hdelivered]
    exact hi.fetched hunsent
  | processor => exact ⟨hi.law, hi.entered, hi.fetched⟩

theorem reachable_wired (h : (d.machine initial).Reachable s) : Wired s := by
  refine h.invariant ?_ fun _ _ _ hi hs => hi.step hs
  intro s h
  refine ⟨?_, ?_, ?_⟩
  · rw [h.distributor]
    exact Distributor.law_start
  · rw [h.distributor, h.workers.enqueued]
    rfl
  · intro _
    rw [h.workers.system, h.batches]
    rfl

/-! ## What gets to the index -/

/-- Nothing is on its way, and every batch was sent and is reported. -/
structure Settled (d : ParallelDeployment) (s : State) : Prop where
  idle : s.distributor.batch = []
  workers : s.workers.pool.Settled
  unsent : s.unsent = []
  served : ∀ command ∈ s.processor.queue, ¬ d.WritesIndex command
  reported : ∀ e ∈ s.processor.served, d.WritesIndex e.command → e.Reported

/-- What the stages of the workers make of what the distributor has received. -/
def State.outputs (d : ParallelDeployment) (s : State) : List Event :=
  ParallelTableProcessor.outputs d.stream.rt d.stream.stages s.distributor.received

/-- All that is made is for the task's index. -/
def Routed (d : ParallelDeployment) (s : State) : Prop :=
  ∀ e ∈ s.outputs d, d.adapter.indexName d.stream.rt e = some d.indexName

theorem reachable_conserves (h : ((d.machine initial).restrict d.Spares).Reachable s) :
    WorkerPool.Conserves (ParallelResults.make d.config) d.workersPerTable s.workers.pool := by
  have hpool : ((WorkerPool.machine (ParallelResults.make d.config) d.workersPerTable).restrict
      fun _ _ => True).Reachable s.workers.pool :=
    reachable_workers (fun _ _ _ => trivial) (h.mono ?_)
  · exact WorkerPool.reachable_conserves hpool.of_restrict
  · intro s l hspares
    cases l with
    | work l => exact ⟨hspares, fun _ _ => trivial⟩
    | distribute | forward | answer | processor => exact ⟨hspares, trivial⟩

theorem Settled.pool (hsettled : Settled d s) (hwired : Wired s) :
    s.workers.pool.fetched = s.batches.flatten ∧
      s.workers.pool.entered.filterMap (ParallelResults.make d.config) = s.outputs d := by
  have hsent := hwired.law.sent
  rw [hsettled.idle, List.append_nil] at hsent
  refine ⟨hwired.fetched hsettled.unsent, ?_⟩
  show (s.workers.enqueued.map Prod.snd).filterMap (ParallelResults.make d.config) = _
  rw [hwired.entered, hsent]
  rfl

/-- The batches make up what the stages make, in some order. -/
theorem Settled.batches_perm (hsettled : Settled d s)
    (h : ((d.machine initial).restrict d.Spares).Reachable s) :
    s.batches.flatten.Perm (s.outputs d) := by
  obtain ⟨hfetched, hentered⟩ := hsettled.pool (reachable_wired h.of_restrict)
  have hperm := (reachable_conserves h).fetched_perm hsettled.workers
  rwa [hfetched, hentered] at hperm

/-- The index has the batches, all puts of each batch first. -/
theorem Settled.index_eq_batches (hsettled : Settled d s) (h : (d.machine initial).Reachable s)
    (hrouted : ∀ e ∈ s.batches.flatten, d.adapter.indexName d.stream.rt e = some d.indexName) :
    s.processor.documents d.indexName =
      KeyedLog.run ((s.batches.map d.operations).flatMap KeyedLog.regroup)
        (initial d.indexName) :=
  Deployment.index_of_batches ((d.fronts initial).reachable h) ((d.fronts initial).sent h)
    hsettled.served hsettled.reported hrouted

theorem Routed.batches (hrouted : Routed d s) (hsettled : Settled d s)
    (h : ((d.machine initial).restrict d.Spares).Reachable s) :
    ∀ e ∈ s.batches.flatten, d.adapter.indexName d.stream.rt e = some d.indexName := by
  intro e he
  exact hrouted e ((hsettled.batches_perm h).mem_iff.mp he)

/-! ## Without races -/

theorem reachable_inLine (h : ((d.machine initial).restrict d.SparesOrder).Reachable s)
    (k : String) :
    WorkerPool.InLine d.key (ParallelResults.make d.config) k s.workers.pool := by
  refine WorkerPool.reachable_inLine (WorkerPool.reachable_apart (reachable_workers ?_ h)) k
  intro p m hm
  refine .inr ?_
  cases m with
  | take worker count => exact absurd rfl (hm worker count)
  | put | finish | fetch => trivial

theorem onKey_operations (k : String) (events : List Event) :
    KeyedLog.onKey k (d.operations events) = d.operations (WorkerPool.keyed d.key k events) := by
  induction events with
  | nil => rfl
  | cons e rest ih =>
    unfold Deployment.operations SearchServer.operations at ih ⊢
    cases hop : d.server.operation d.adapter d.indexName e with
    | none =>
      have hkey : d.key e = none := by rw [key, hop]; rfl
      rw [List.filterMap_cons, hop, WorkerPool.keyed, List.filter_cons_of_neg (by simp [hkey])]
      exact ih
    | some op =>
      have hkey : d.key e = some op.key := by rw [key, hop]; rfl
      rw [List.filterMap_cons, hop]
      by_cases hk : op.key = k
      · rw [WorkerPool.keyed, List.filter_cons_of_pos (by simp [hkey, hk]), List.filterMap_cons,
          hop, KeyedLog.onKey, List.filter_cons_of_pos (by simp [hk])]
        exact congrArg _ ih
      · rw [WorkerPool.keyed, List.filter_cons_of_neg (by simp [hkey, hk]), KeyedLog.onKey,
          List.filter_cons_of_neg (by simp [hk])]
        exact ih

/-- The batches have the operations on each document in their order. -/
theorem Settled.sameOnKeys (hsettled : Settled d s)
    (h : ((d.machine initial).restrict d.SparesOrder).Reachable s) :
    KeyedLog.SameOnKeys (d.operations s.batches.flatten) (d.operations (s.outputs d)) := by
  intro k
  obtain ⟨hfetched, hentered⟩ := hsettled.pool (reachable_wired h.of_restrict)
  have hline := (reachable_inLine h k).keyed_fetched hsettled.workers
  rw [hfetched, hentered] at hline
  rw [onKey_operations, onKey_operations, hline]

theorem Settled.index_eq (hsettled : Settled d s)
    (h : ((d.machine initial).restrict d.SparesOrder).Reachable s) (hrouted : Routed d s)
    (hregroupable : ∀ batch ∈ s.batches, KeyedLog.Regroupable (d.operations batch)) :
    s.processor.documents d.indexName =
      KeyedLog.run (d.operations (s.outputs d)) (initial d.indexName) := by
  have hspares := h.mono fun _ _ hok => hok.1
  rw [hsettled.index_eq_batches h.of_restrict (hrouted.batches hsettled hspares),
    KeyedLog.run_flatMap_regroup, ← Deployment.operations_flatten]
  · exact KeyedLog.run_congr (hsettled.sameOnKeys h) _
  · intro ops hops
    obtain ⟨batch, hbatch, rfl⟩ := List.mem_map.mp hops
    exact hregroupable batch hbatch

/-! ## Beside the plain path -/

/-- The stages do not care in which order the soft-delete handler comes. -/
def StagesAgree (d : ParallelDeployment) (e : Event) : Prop :=
  (d.stream.stages.processSingleEvent d.stream.rt e).Agree
    (ParallelTableProcessor.processSingleEvent d.stream.rt d.stream.stages e)

instance (e : Event) : Decidable (StagesAgree d e) :=
  inferInstanceAs (Decidable (Outcome.Agree _ _))

theorem outputs_eq (hagree : ∀ e ∈ s.distributor.received, StagesAgree d e) :
    s.outputs d = d.stream.stages.outputs d.stream.rt s.distributor.received := by
  refine List.filterMap_congr ?_
  intro e he
  rw [ParallelTableProcessor.output, (hagree e he).1]

/-! ### One book, two workers -/

def booksInParallel : ParallelDeployment :=
  { Deployment.booksDeployed with
    workersPerTable := 2, maxConcurrentEvents := 1000, workStealing := true }

/-- While the others have nothing in hand, a worker may take what it likes. -/
theorem sparesOrder_drain {worker : Nat}
    (hfree : ∀ other, other ≠ worker → s.workers.pool.held other = []) :
    d.SparesOrder s (.work (.drain 0 worker)) := by
  refine ⟨trivial, ?_⟩
  intro m hm
  obtain rfl := Option.some.inj hm
  refine .inr ?_
  intro k _ other hother
  rw [hfree other hother]
  rfl

theorem sparesOrder_send {worker : Nat}
    (hno : ParallelResults.NoPanic d.config s.workers (.system (.send 0 worker))) :
    d.SparesOrder s (.work (.send 0 worker)) := by
  refine ⟨hno, ?_⟩
  intro m hm
  obtain rfl := Option.some.inj hm
  exact .inr trivial

/-- A worker has taken the book, and the processor has served it. -/
theorem exists_bookServed (w : Documents) :
    ∃ s, ((booksInParallel.machine w).restrict booksInParallel.SparesOrder).Reachable s ∧
      Settled booksInParallel s ∧ s.processor = Deployment.bookServed w ∧
      s.batches = [[bookInserted]] ∧ s.distributor.received = [bookInserted] := by
  have h₀ : ((booksInParallel.machine w).restrict booksInParallel.SparesOrder).Reachable
      ⟨.start, ParallelResults.start booksInParallel.config, ⟨.connecting, [], w, [], []⟩, none,
        [], []⟩ := .init ⟨rfl, ParallelResults.start_starts _, rfl, rfl, rfl⟩
  have h₁ := h₀.step (l := Label.processor (.connect true))
    ⟨⟨trivial, trivial⟩, .processor trivial (.connect rfl)⟩
  have h₂ := h₁.step (l := Label.distribute (.item (.ok bookInserted)))
    ⟨⟨trivial, trivial⟩, .distribute rfl rfl⟩
  have h₃ := h₂.step (l := Label.distribute .tick)
    ⟨⟨trivial, trivial⟩, .distribute rfl (.enqueue rfl)⟩
  -- one worker takes the event and hands it over, and it is sent and served
  have h₄ := h₃.step (l := Label.work (.drain 0 0))
    ⟨sparesOrder_drain fun _ _ => rfl, .work rfl (.passOn rfl rfl)⟩
  have h₅ := h₄.step (l := Label.work (.acquire 0 0))
    ⟨⟨trivial, nofun⟩, .work rfl (.passOn rfl rfl)⟩
  have h₆ := h₅.step (l := Label.work (.send 0 0))
    ⟨sparesOrder_send ?_, .work rfl (.send rfl rfl)⟩
  have h₇ := h₆.step (l := Label.forward)
    ⟨⟨trivial, trivial⟩, .forward (.forward rfl rfl rfl) rfl (.send nofun (Nat.zero_lt_succ _))⟩
  have hserve : DestinationProcessor.serve booksInParallel.stream.rt idAdapter 10 true
      (.processEvents [bookInserted]) = some _ := rfl
  have h₈ := h₇.step (l := Label.processor .serve) ⟨⟨trivial, trivial⟩, .processor trivial (.serve
    (r := .ok ⟨1, 0, some (.postgreSQL "0/10"), []⟩) rfl rfl hserve
    ⟨.succeeds, trivial, .succeeds, trivial, rfl, rfl⟩)⟩
  · refine ⟨_, h₈, ⟨rfl, ⟨rfl, ?_, rfl⟩, rfl, ?_, ?_⟩, rfl, rfl, rfl⟩
    · intro worker
      cases worker with
      | zero => rfl
      | succ n => rfl
    · intro command hcommand
      cases hcommand
    · intro e he _
      obtain rfl := List.mem_singleton.mp he
      exact ⟨_, rfl, rfl⟩
  · intro events hevents
    obtain rfl := Worker.working.inj hevents
    exact Option.some_ne_none _

/-! ## What the index holds -/

end ParallelDeployment

end MeiliBridge
