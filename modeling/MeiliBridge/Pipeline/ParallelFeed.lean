import MeiliBridge.Lib.WorkerPool
import MeiliBridge.Pipeline.ParallelOrder
import MeiliBridge.Pipeline.ParallelResults

/-!
# The distributor, and the workers of one table as a pool

`distribute_events_to_parallel_processor` reads the channel of its table and enqueues what it has
read fifty events at a time, or whatever there is when its timer ticks or the shutdown signal comes.

To the events of one table the workers of `MeiliBridge.Pipeline.ParallelResults` are a pool on one
queue (`pool_step`), so what is proved about pools is true of them: what the workers hand over is
what the stages make of the events enqueued.
-/

set_option autoImplicit false

namespace MeiliBridge

open Parallel

/-! ## The distributor -/

/-- The loop of `distribute_events_to_parallel_processor`; `received` and `enqueued` record what
came out of the channel and what went into the queue. -/
structure Distributor where
  batch : List Event
  stopped : Bool
  received : List Event
  enqueued : List Event

namespace Distributor

inductive Input where
  | item (item : Result Event)
  | tick
  | shutdown (signal : Bool)

def start : Distributor := ⟨[], false, [], []⟩

/-- The batch goes to `enqueue_events`. -/
def flush (d : Distributor) : Distributor :=
  { d with batch := [], enqueued := d.enqueued ++ d.batch }

/-- One turn of the loop, and what it enqueues. -/
def turn (d : Distributor) : Input → Distributor × Option (List Event)
  | .item (.ok event) =>
    let d := { d with batch := d.batch ++ [event], received := d.received ++ [event] }
    if 50 ≤ d.batch.length then (d.flush, some d.batch) else (d, none)
  | .item (.error _) => (d, none)
  | .tick => if d.batch = [] then (d, none) else (d.flush, some d.batch)
  | .shutdown true =>
    if d.batch = [] then ({ d with stopped := true }, none)
    else ({ d.flush with stopped := true }, some d.batch)
  | .shutdown false => (d, none)

/-- Everything received is enqueued or in the batch, in its order, and the loop does not end with
events in hand. -/
structure Law (d : Distributor) : Prop where
  sent : d.enqueued ++ d.batch = d.received
  short : d.batch.length < 50
  ended : d.stopped = true → d.batch = []

theorem law_start : start.Law := ⟨rfl, by decide, fun _ => rfl⟩

theorem Law.flush {d : Distributor} (h : d.enqueued ++ d.batch = d.received) : d.flush.Law where
  sent := by
    show (d.enqueued ++ d.batch) ++ [] = d.received
    rw [List.append_nil, h]
  short := Nat.succ_pos 49
  ended _ := rfl

theorem Law.turn {d : Distributor} (h : d.Law) (hgoes : d.stopped = false) (i : Input) :
    (d.turn i).1.Law := by
  have hgoes : d.stopped = true → d.batch = [] := by
    rw [hgoes]
    nofun
  cases i with
  | item item =>
    cases item with
    | ok event =>
      have hsent : d.enqueued ++ (d.batch ++ [event]) = d.received ++ [event] := by
        rw [← List.append_assoc, h.sent]
      unfold Distributor.turn
      dsimp only
      split
      · exact Law.flush hsent
      · next hshort =>
        refine ⟨hsent, Nat.lt_of_not_le hshort, ?_⟩
        intro hstopped
        exact absurd hstopped (by rw [‹d.stopped = false›]; decide)
    | error e => exact ⟨h.sent, h.short, hgoes⟩
  | tick =>
    unfold Distributor.turn
    dsimp only
    split
    · exact ⟨h.sent, h.short, hgoes⟩
    · exact Law.flush h.sent
  -- a signal that says `false` changes nothing; the other one empties the batch before the end
  | shutdown signal =>
    cases signal with
    | true =>
      unfold Distributor.turn
      dsimp only
      split
      · next hnone => exact ⟨h.sent, h.short, fun _ => hnone⟩
      · have hflush := Law.flush h.sent
        exact ⟨hflush.sent, hflush.short, fun _ => rfl⟩
    | false => exact ⟨h.sent, h.short, hgoes⟩

theorem enqueued_turn (d : Distributor) (i : Input) :
    (d.turn i).1.enqueued = d.enqueued ++ (d.turn i).2.getD [] := by
  cases i with
  | item item =>
    cases item with
    | ok event =>
      unfold turn
      dsimp only
      split
      · rfl
      · exact (List.append_nil _).symm
    | error e => exact (List.append_nil _).symm
  | tick =>
    unfold turn
    dsimp only
    split
    · exact (List.append_nil _).symm
    · rfl
  | shutdown signal =>
    cases signal with
    | true =>
      unfold turn
      dsimp only
      split
      · exact (List.append_nil _).symm
      · rfl
    | false => exact (List.append_nil _).symm

end Distributor

/-! ## What the workers make -/

namespace ParallelTableProcessor

/-- What the stages make of an event, if they let it through. -/
def output (rt : Runtime) (st : Stages) (e : Event) : Option Event :=
  (processSingleEvent rt st e).returned.join

def outputs (rt : Runtime) (st : Stages) (events : List Event) : List Event :=
  events.filterMap (output rt st)

theorem outputs_processBatch {rt : Runtime} {st : Stages} {xs ys : List Tagged}
    (h : processBatch rt st xs = some ys) :
    ys.map Tagged.event = outputs rt st (xs.map Tagged.event) := by
  induction xs generalizing ys with
  | nil =>
    cases h
    rfl
  | cons x xs ih =>
    unfold processBatch at h
    unfold outputs
    rw [List.map_cons, List.filterMap_cons]
    split at h
    · next e he =>
      obtain ⟨zs, hzs, rfl⟩ := Option.map_eq_some_iff.mp h
      rw [output, he, List.map_cons, ih hzs]
      rfl
    · next he =>
      rw [output, he]
      exact ih h
    · next he =>
      rw [output, he]
      exact ih h
    · cases h

end ParallelTableProcessor

namespace ParallelResults

/-! ## One table as a pool -/

/-- A table's events, without their numbers. -/
def poolOf (p : Processor) (delivered : List Tagged) (enqueued : List Event) :
    WorkerPool.Pool Event Event where
  queue := p.queue.map Tagged.event
  held worker := (p.workers worker).held.map Tagged.event
  ready := p.results.flatten.map Tagged.event
  fetched := delivered.map Tagged.event
  entered := enqueued

def State.pool (s : State) : WorkerPool.Pool Event Event :=
  poolOf (s.system.processors 0) s.system.delivered (s.enqueued.map Prod.snd)

/-- The steps of the first table. -/
def OfFirst : Label → Prop
  | .system (.enqueue table _) | .system (.drain table _) | .system (.acquire table _)
  | .system (.send table _) | .system (.forward table) | .answer table _ _ => table = 0
  | .system .survey | .system .steal | .system .settle => False

/-- What the step is to the pool. -/
def State.move (s : State) : Label → Option (WorkerPool.Move Event)
  | .system (.enqueue _ events) => some (.put events)
  | .system (.drain _ worker) =>
    some (.take worker (min 10 (s.system.processors 0).queue.length))
  | .system (.send _ worker) => some (.finish worker)
  | .system (.forward _) => some (.fetch (((s.system.processors 0).results.headD []).length))
  | _ => none

/-- No transformer panics on the worker's events. -/
def NoPanic (cfg : ParallelConfig) (s : State) : Label → Prop
  | .system (.send table worker) => ∀ events,
      (s.system.processors table).workers worker = .working events →
      processBatch cfg.rt (cfg.stages table) events ≠ none
  | _ => True

theorem map_event_tag (n : Nat) (events : List Event) :
    (tag n events).map Tagged.event = events := by
  simp [tag, Function.comp_def]

/-- The pool's makers are the stages of the table. -/
def make (cfg : ParallelConfig) : Event → Option Event :=
  ParallelTableProcessor.output cfg.rt (cfg.stages 0)

variable {cfg : ParallelConfig} {s s' : State} {l : Label}

theorem poolOf_setWorker (p : Processor) (worker : Nat) (w : Worker) (delivered : List Tagged)
    (enqueued : List Event) :
    poolOf (System.setWorker p worker w) delivered enqueued =
      { poolOf p delivered enqueued with
        held := Function.update (poolOf p delivered enqueued).held worker
          (w.held.map Tagged.event) } := by
  have hheld : (poolOf (System.setWorker p worker w) delivered enqueued).held =
      Function.update (poolOf p delivered enqueued).held worker (w.held.map Tagged.event) := by
    funext i
    show ((System.setWorker p worker w).workers i).held.map Tagged.event = _
    rw [held_setWorker]
    by_cases hi : i = worker
    · rw [if_pos hi, hi, Function.update_self]
    · rw [if_neg hi, Function.update_of_ne hi]
      rfl
  rw [← hheld]
  rfl

/-- **The workers of one table are a pool.** -/
theorem pool_step (hfirst : OfFirst l) (hno : NoPanic cfg s l) (hs : Step cfg s l s') :
    match s.move l with
    | some m => WorkerPool.Step (make cfg) cfg.workersPerTable s.pool m s'.pool
    | none => s'.pool = s.pool := by
  cases hs with
  | @enqueue table events system h =>
    obtain rfl : table = 0 := hfirst
    cases moves_of_step h with
    | enqueue =>
      show WorkerPool.Step _ _ _ (.put events) (poolOf ((s.system.setProcessor 0
        ((s.system.processors 0).enqueueEvents (tag s.system.nextSeq events))).processors 0)
        s.system.delivered ((s.enqueued ++ events.map fun e => (0, e)).map Prod.snd))
      have hput : WorkerPool.Step (make cfg) cfg.workersPerTable s.pool (.put events) _ := .put
      have hpool : poolOf ((s.system.processors 0).enqueueEvents (tag s.system.nextSeq events))
          s.system.delivered ((s.enqueued ++ events.map fun e => (0, e)).map Prod.snd) =
          { s.pool with
            queue := s.pool.queue ++ events, entered := s.pool.entered ++ events } := by
        simp [State.pool, poolOf, Processor.enqueueEvents, map_event_tag, Function.comp_def]
      rw [System.processors_setProcessor_self, hpool]
      exact hput
  | @passOn l system hl h =>
    cases moves_of_step h with
    -- these have steps of their own, which record what they do
    | enqueue | send | panic | forward => cases hl
    | surveyFirst | surveyNext | steal | leave | settle => exact absurd hfirst id
    | @drain table worker hidle hworker hqueue =>
      obtain rfl : table = 0 := hfirst
      have hheld : s.pool.held worker = [] := by
        show ((s.system.processors 0).workers worker).held.map Tagged.event = []
        rw [hidle]
        rfl
      have htake : WorkerPool.Step (make cfg) cfg.workersPerTable s.pool
          (.take worker (min 10 (s.system.processors 0).queue.length)) _ := .take hworker hheld
      show WorkerPool.Step _ _ _ (.take worker _) (poolOf ((s.system.setProcessor 0
        (System.setWorker _ worker (.waiting (s.system.processors 0).drained))).processors 0) _ _)
      rw [System.processors_setProcessor_self, poolOf_setWorker]
      rw [State.pool, poolOf, ← List.map_take, ← List.map_drop] at htake
      exact htake
    | @acquire table worker events hwaiting hpermits =>
      obtain rfl : table = 0 := hfirst
      show poolOf ((s.system.setProcessor 0 (System.setWorker
        { s.system.processors 0 with permits := (s.system.processors 0).permits - events.length }
        worker (.working events))).processors 0) _ _ = s.pool
      -- a worker that gets its permits keeps what it has drained, so the pool sees nothing
      have hsame : Function.update s.pool.held worker (events.map Tagged.event) = s.pool.held := by
        have hevents : events.map Tagged.event = s.pool.held worker := by
          show _ = ((s.system.processors 0).workers worker).held.map Tagged.event
          rw [hwaiting]
          rfl
        rw [hevents, Function.update_eq_self]
      rw [System.processors_setProcessor_self, poolOf_setWorker]
      show { s.pool with held := Function.update s.pool.held worker (events.map Tagged.event) } = _
      rw [hsame]
  | @send table worker events system hworking h =>
    obtain rfl : table = 0 := hfirst
    have hheld : events.map Tagged.event = s.pool.held worker := by
      show _ = ((s.system.processors 0).workers worker).held.map Tagged.event
      rw [hworking]
      rfl
    have hfinish : WorkerPool.Step (make cfg) cfg.workersPerTable s.pool (.finish worker) _ :=
      .finish
    cases moves_of_step h with
    | @panic _ _ events hworking' hnone => exact absurd hnone (hno events hworking')
    | @send _ _ events' processed results hworking' hprocessed hresults =>
      obtain rfl : events' = events := by
        rw [hworking] at hworking'
        exact (Worker.working.inj hworking').symm
      have hmade := ParallelTableProcessor.outputs_processBatch hprocessed
      have hready : results.flatten.map Tagged.event =
          s.pool.ready ++ (s.pool.held worker).filterMap (make cfg) := by
        rw [← hheld]
        show _ = (s.system.processors 0).results.flatten.map Tagged.event ++
          ParallelTableProcessor.outputs cfg.rt (cfg.stages 0) (events'.map Tagged.event)
        rw [← hmade]
        -- a batch of which nothing is left is not sent on
        rcases hresults with ⟨rfl, rfl⟩ | ⟨-, -, rfl⟩
        · exact (List.append_nil _).symm
        · simp
      show WorkerPool.Step _ _ _ (.finish worker) (poolOf ((s.system.setProcessor 0
        (System.setWorker _ worker .idle)).processors 0) s.system.delivered _)
      rw [System.processors_setProcessor_self, poolOf_setWorker]
      rw [← hready] at hfinish
      exact hfinish
  | @forward table batch rest system hresults hidle h =>
    obtain rfl : table = 0 := hfirst
    cases moves_of_step h with
    | @forward _ batch' rest' hresults' =>
      obtain ⟨rfl, rfl⟩ : batch' = batch ∧ rest' = rest := by
        rw [hresults] at hresults'
        exact ⟨(List.cons.inj hresults').1.symm, (List.cons.inj hresults').2.symm⟩
      have hfetch : WorkerPool.Step (make cfg) cfg.workersPerTable s.pool
          (.fetch batch'.length) _ := .fetch
      have hready : s.pool.ready = batch'.map Tagged.event ++ rest'.flatten.map Tagged.event := by
        show (s.system.processors 0).results.flatten.map Tagged.event = _
        rw [hresults, List.flatten_cons, List.map_append]
      have hlength : batch'.length = (batch'.map Tagged.event).length := (List.length_map _).symm
      show WorkerPool.Step _ _ _ (.fetch (((s.system.processors 0).results.headD []).length))
        (poolOf ((s.system.setProcessor 0
          { s.system.processors 0 with results := rest' }).processors 0)
          (s.system.delivered ++ batch') _)
      rw [System.processors_setProcessor_self, hresults, List.headD_cons]
      rw [hready, hlength, List.take_left, List.drop_left, ← hlength] at hfetch
      have hfetched : s.pool.fetched ++ batch'.map Tagged.event =
          (s.system.delivered ++ batch').map Tagged.event := List.map_append.symm
      rw [hfetched] at hfetch
      exact hfetch
  | answer => rfl

theorem reachable_pool {ok : WorkerPool.Pool Event Event → WorkerPool.Move Event → Prop}
    (h : ((machine cfg).restrict fun s l => OfFirst l ∧ NoPanic cfg s l ∧
      ∀ m, s.move l = some m → ok s.pool m).Reachable s) :
    ((WorkerPool.machine (make cfg) cfg.workersPerTable).restrict ok).Reachable s.pool := by
  induction h with
  | @init s h =>
    refine .init ?_
    show poolOf _ _ _ = _
    rw [h.system, h.enqueued]
    rfl
  | @step s s' l _ hs ih =>
    obtain ⟨⟨hfirst, hno, hok⟩, hs⟩ := hs
    have hpool := pool_step hfirst hno hs
    cases hm : s.move l with
    | some m =>
      rw [hm] at hpool
      exact ih.step ⟨hok m hm, hpool⟩
    | none =>
      rw [hm] at hpool
      rw [hpool]
      exact ih

/-! ## What a step adds to the two ends -/

/-- The events that a step puts into a queue. -/
def enqueuedBy : Label → List Event
  | .system (.enqueue _ events) => events
  | _ => []

/-- The batch that a step takes off a channel of results. -/
def forwardedBy (s' : State) : Label → List Tagged
  | .system (.forward table) => (s'.awaiting table).getD []
  | _ => []

theorem enqueued_step (hs : Step cfg s l s') :
    s'.enqueued.map Prod.snd = s.enqueued.map Prod.snd ++ enqueuedBy l := by
  cases hs with
  | enqueue => simp [enqueuedBy, Function.comp_def]
  | @passOn l system hl h =>
    cases l with
    | enqueue | send | forward => cases hl
    | drain | acquire | survey | steal | settle => exact (List.append_nil _).symm
  | send | forward | answer => exact (List.append_nil _).symm

theorem delivered_step (hs : Step cfg s l s') :
    s'.system.delivered = s.system.delivered ++ forwardedBy s' l := by
  cases hs with
  | enqueue h =>
    cases moves_of_step h with
    | enqueue => exact (List.append_nil _).symm
  | @passOn l system hl h =>
    cases moves_of_step h with
    | enqueue | send | panic | forward => cases hl
    | _ => exact (List.append_nil _).symm
  | send _ h =>
    cases moves_of_step h with
    | send | panic => exact (List.append_nil _).symm
  | @forward table batch rest system hresults hidle h =>
    cases moves_of_step h with
    | @forward _ batch' rest' hresults' =>
      obtain rfl : batch' = batch := by
        rw [hresults] at hresults'
        exact (List.cons.inj hresults').1.symm
      simp [forwardedBy]
  | answer => exact (List.append_nil _).symm

end ParallelResults

end MeiliBridge
