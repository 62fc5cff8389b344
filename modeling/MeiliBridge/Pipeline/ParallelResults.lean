import MeiliBridge.Delivery.Deduplication
import MeiliBridge.Delivery.World
import MeiliBridge.Destination.Adapter
import MeiliBridge.Pipeline.ParallelMoves

/-!
# The parallel processors and their results

`process_parallel_results` takes the processed batches of one table off their channel, sends each to
the destination, and waits for the answer before it takes the next. It moves the in-memory
checkpoint of the table's task to the last position of a response, however many events have failed;
it stores nothing in the dead letter queue, and a batch whose answer is an error is gone.

A `State` is a `System` of processors with what this function holds and writes, and with a record of
what became of each event: the table it was enqueued for, the table whose stages it went through,
and whether it was dropped or acknowledged (`settled`) or neither (`lost`). The last position of a
response is that of the destination's `process_events`.
-/

set_option autoImplicit false

namespace MeiliBridge

open Parallel

namespace ParallelResults

/-! ## The outcome of a worker's batch -/

/-- The events that go through the stages: all up to a panic. -/
def processedSeqs (rt : Runtime) (st : Stages) : List Tagged → List Nat
  | [] => []
  | x :: xs =>
    match ParallelTableProcessor.processSingleEvent rt st x.event with
    | .panicked => [x.seq]
    | _ => x.seq :: processedSeqs rt st xs

/-- The events that the stages drop. -/
def droppedSeqs (rt : Runtime) (st : Stages) : List Tagged → List Nat
  | [] => []
  | x :: xs =>
    match ParallelTableProcessor.processSingleEvent rt st x.event with
    | .kept _ => droppedSeqs rt st xs
    | .dropped | .failed _ => x.seq :: droppedSeqs rt st xs
    | .panicked => []

/-- A processed event, beside the one it was made of. -/
def MadeOf (rt : Runtime) (st : Stages) (y x : Tagged) : Prop :=
  ∃ e, ParallelTableProcessor.processSingleEvent rt st x.event = .kept e ∧ y = { x with event := e }

theorem mem_processBatch {rt : Runtime} {st : Stages} {xs ys : List Tagged}
    (h : processBatch rt st xs = some ys) : ∀ y ∈ ys, ∃ x ∈ xs, MadeOf rt st y x := by
  induction xs generalizing ys with
  | nil =>
    cases h
    intro y hy
    cases hy
  | cons x xs ih =>
    intro y hy
    simp only [processBatch] at h
    split at h
    · next e he =>
      obtain ⟨zs, hzs, rfl⟩ := Option.map_eq_some_iff.mp h
      rcases List.mem_cons.mp hy with rfl | hmem
      · exact ⟨x, List.mem_cons_self, e, he, rfl⟩
      · obtain ⟨x', hx', hmade⟩ := ih hzs y hmem
        exact ⟨x', List.mem_cons_of_mem _ hx', hmade⟩
    · obtain ⟨x', hx', hmade⟩ := ih h y hy
      exact ⟨x', List.mem_cons_of_mem _ hx', hmade⟩
    · obtain ⟨x', hx', hmade⟩ := ih h y hy
      exact ⟨x', List.mem_cons_of_mem _ hx', hmade⟩
    · cases h

/-- Every event of a batch is dropped or gets through. -/
theorem processBatch_covers {rt : Runtime} {st : Stages} {xs ys : List Tagged}
    (h : processBatch rt st xs = some ys) : ∀ x ∈ xs,
      x.seq ∈ droppedSeqs rt st xs ∨ ∃ y ∈ ys, y.seq = x.seq ∧ y.source = x.source := by
  induction xs generalizing ys with
  | nil =>
    intro x hx
    cases hx
  | cons x xs ih =>
    intro x' hx'
    -- the stages return no event
    have hnone : droppedSeqs rt st (x :: xs) = x.seq :: droppedSeqs rt st xs →
        processBatch rt st xs = some ys →
        x'.seq ∈ droppedSeqs rt st (x :: xs) ∨ ∃ y ∈ ys, y.seq = x'.seq ∧ y.source = x'.source := by
      intro hdropped hys
      rw [hdropped]
      rcases List.mem_cons.mp hx' with rfl | hmem
      · exact .inl List.mem_cons_self
      · rcases ih hys x' hmem with hrest | hy
        · exact .inl (List.mem_cons_of_mem _ hrest)
        · exact .inr hy
    simp only [processBatch] at h
    split at h
    · next e he =>
      have hdropped : droppedSeqs rt st (x :: xs) = droppedSeqs rt st xs := by
        simp only [droppedSeqs, he]
      rw [hdropped]
      obtain ⟨zs, hzs, rfl⟩ := Option.map_eq_some_iff.mp h
      rcases List.mem_cons.mp hx' with rfl | hmem
      · exact .inr ⟨_, List.mem_cons_self, rfl, rfl⟩
      · rcases ih hzs x' hmem with hrest | ⟨y, hy, heq⟩
        · exact .inl hrest
        · exact .inr ⟨y, List.mem_cons_of_mem _ hy, heq⟩
    · next he => exact hnone (by simp only [droppedSeqs, he]) h
    · next err he => exact hnone (by simp only [droppedSeqs, he]) h
    · cases h

theorem processedSeqs_subset {rt : Runtime} {st : Stages} {xs : List Tagged} {n : Nat}
    (h : n ∈ processedSeqs rt st xs) : ∃ x ∈ xs, x.seq = n := by
  induction xs with
  | nil => cases h
  | cons x xs ih =>
    unfold processedSeqs at h
    split at h
    · exact ⟨x, List.mem_cons_self, (List.mem_singleton.mp h).symm⟩
    · rcases List.mem_cons.mp h with rfl | hrest
      · exact ⟨x, List.mem_cons_self, rfl⟩
      · obtain ⟨x', hx', hseq⟩ := ih hrest
        exact ⟨x', List.mem_cons_of_mem _ hx', hseq⟩

/-! ## The state -/

structure State where
  system : System
  /-- every enqueued event, with its table; its place is its number -/
  enqueued : List (Nat × Event)
  /-- the numbers of the events that went through the stages, with the table of the stages -/
  processed : List (Nat × Nat)
  /-- the batch that a table's `process_parallel_results` waits for the answer to -/
  awaiting : Nat → Option (List Tagged)
  /-- the values of the in-memory checkpoint of a table's task, the present one last -/
  positions : Nat → List Position
  /-- the numbers of the events whose position became a checkpoint, with the table of its task -/
  recorded : List (Nat × Nat)
  /-- the numbers of the events that were dropped or acknowledged -/
  settled : List Nat
  /-- the events that were neither and are gone, with the table where it happened -/
  lost : List (Nat × Tagged)

/-- The event whose position a response carries. -/
def recordedOf (batch : List Tagged) : Option Nat :=
  (batch.filter fun x =>
    match x.event with
    | .cdc e => e.position.isSome
    | _ => false).getLast?.map Tagged.seq

/-- The position that `process_parallel_results` records. -/
def answerPosition : Answer → Option Position
  | .response r => r.lastPosition
  | _ => none

/-- Which events of the batch the answer acknowledges: all if none failed, and none without a
response. -/
def Acknowledges (answer : Answer) (batch : List Tagged) (acked : List Nat) : Prop :=
  match answer with
  | .response r => (∀ n ∈ acked, ∃ x ∈ batch, x.seq = n) ∧
      (r.failedCount = 0 → ∀ x ∈ batch, x.seq ∈ acked)
  | _ => acked = []

namespace State

/-- After the worker of a table has processed its batch. -/
def noteSend (cfg : ParallelConfig) (s : State) (table : Nat) (events : List Tagged) : State :=
  let st := cfg.stages table
  let dropped := droppedSeqs cfg.rt st events
  { s with
    processed := s.processed ++ (processedSeqs cfg.rt st events).map fun n => (n, table)
    settled := s.settled ++ dropped
    lost :=
      if (processBatch cfg.rt st events).isNone then
        s.lost ++ (events.filter fun x => x.seq ∉ dropped).map fun x => (table, x)
      else s.lost }

/-- After the answer to a batch. -/
def settle (s : State) (table : Nat) (batch : List Tagged) (answer : Answer) (acked : List Nat) :
    State :=
  { s with
    awaiting := Function.update s.awaiting table none
    positions :=
      match answerPosition answer with
      | some position => Function.update s.positions table (s.positions table ++ [position])
      | none => s.positions
    recorded :=
      match answerPosition answer with
      | some _ => s.recorded ++ (recordedOf batch).toList.map fun n => (n, table)
      | none => s.recorded
    settled := s.settled ++ acked
    lost := s.lost ++ (batch.filter fun x => x.seq ∉ acked).map fun x => (table, x) }

/-- The checkpoint of a table's task. -/
def checkpoint (s : State) (table : Nat) : Option Position := (s.positions table).getLast?

end State

/-! ## The steps -/

inductive Label where
  | system (l : Parallel.Label)
  /-- the answer to the batch of a table, and the events it acknowledges -/
  | answer (table : Nat) (answer : Answer) (acked : List Nat)

/-- The steps that only pass events on. -/
def passesOn : Parallel.Label → Bool
  | .drain _ _ | .acquire _ _ | .survey | .steal | .settle => true
  | .enqueue _ _ | .send _ _ | .forward _ => false

inductive Step (cfg : ParallelConfig) : State → Label → State → Prop
  | enqueue {s : State} {table : Nat} {events : List Event} {system : System}
      (h : System.step cfg s.system (.enqueue table events) = some system) :
      Step cfg s (.system (.enqueue table events))
        { s with system, enqueued := s.enqueued ++ events.map fun e => (table, e) }
  | passOn {s : State} {l : Parallel.Label} {system : System} (hl : passesOn l = true)
      (h : System.step cfg s.system l = some system) : Step cfg s (.system l) { s with system }
  | send {s : State} {table worker : Nat} {events : List Tagged} {system : System}
      (hworking : (s.system.processors table).workers worker = .working events)
      (h : System.step cfg s.system (.send table worker) = some system) :
      Step cfg s (.system (.send table worker)) { s.noteSend cfg table events with system }
  | forward {s : State} {table : Nat} {batch : List Tagged} {rest : List (List Tagged)}
      {system : System} (hresults : (s.system.processors table).results = batch :: rest)
      (hidle : s.awaiting table = none)
      (h : System.step cfg s.system (.forward table) = some system) :
      Step cfg s (.system (.forward table))
        { s with system, awaiting := Function.update s.awaiting table (some batch) }
  | answer {s : State} {table : Nat} {batch : List Tagged} {answer : Answer} {acked : List Nat}
      (hawaiting : s.awaiting table = some batch) (hacked : Acknowledges answer batch acked)
      (hlast : ∀ r, answer = .response r →
        r.lastPosition = MeilisearchAdapter.lastPosition (batch.map Tagged.event)) :
      Step cfg s (.answer table answer acked) (s.settle table batch answer acked)

/-- Nothing is enqueued yet; the tasks may have checkpoints. -/
structure Starts (cfg : ParallelConfig) (s : State) : Prop where
  system : s.system = .start cfg
  enqueued : s.enqueued = []
  processed : s.processed = []
  awaiting : ∀ table, s.awaiting table = none
  positions : ∀ table, (s.positions table).length ≤ 1
  recorded : s.recorded = []
  settled : s.settled = []
  lost : s.lost = []

def machine (cfg : ParallelConfig) : Trans.Machine State Label where
  init := Starts cfg
  step := Step cfg

def start (cfg : ParallelConfig) : State :=
  ⟨.start cfg, [], [], fun _ => none, fun _ => [], [], [], []⟩

theorem start_starts (cfg : ParallelConfig) : Starts cfg (start cfg) :=
  ⟨rfl, rfl, rfl, fun _ => rfl, fun _ => Nat.zero_le _, rfl, rfl, rfl⟩

/-! ## Events in flight -/

/-- The event is in the processor's queue, with a worker or in the channel of results. -/
def Holds (p : Processor) (x : Tagged) : Prop :=
  x ∈ p.queue ∨ (∃ i, x ∈ (p.workers i).held) ∨ ∃ batch ∈ p.results, x ∈ batch

/-- The event is on its way through the table's processor, or waits for its answer. -/
def State.InFlight (s : State) (table : Nat) (x : Tagged) : Prop :=
  Holds (s.system.processors table) x ∨ ∃ batch, s.awaiting table = some batch ∧ x ∈ batch

/-- Balancing moves nothing: `balance_work` steals no event. -/
def StealsNothing (s : System) : Parallel.Label → Prop
  | .steal => ∀ sizes small large count, s.balance = .surveying sizes →
      plan sizes = some (small, large, count) → (s.processors large).stolen count = []
  | _ => True

/-- Nothing is in the hands of the balancer. -/
def EmptyHanded (s : System) : Prop :=
  ∀ small stolen, s.balance = .moving small stolen → stolen = []

variable {cfg : ParallelConfig} {sys sys' : System}

theorem stealsNothing_of_plan {sizes : List (Nat × Nat)} (hsizes : sys.balance = .surveying sizes)
    (hplan : plan sizes = none) : StealsNothing sys .steal := by
  intro sizes' small large count hsizes' hplan'
  cases hsizes.symm.trans hsizes'
  cases hplan.symm.trans hplan'

/-- What the workers hold after one of them has changed. -/
theorem exists_held_setWorker (p : Processor) (worker : Nat) (w : Worker) (x : Tagged) :
    (∃ i, x ∈ ((System.setWorker p worker w).workers i).held) ↔
      x ∈ w.held ∨ ∃ i, i ≠ worker ∧ x ∈ (p.workers i).held := by
  constructor
  · intro h
    obtain ⟨i, hi⟩ := h
    by_cases hw : i = worker
    · subst hw
      simp only [System.setWorker, Function.update_self] at hi
      exact .inl hi
    · simp only [System.setWorker, Function.update_of_ne hw] at hi
      exact .inr ⟨i, hw, hi⟩
  · intro h
    rcases h with hx | ⟨i, hw, hx⟩
    · exact ⟨worker, by simpa [System.setWorker] using hx⟩
    · exact ⟨i, by simpa [System.setWorker, hw] using hx⟩

theorem exists_held_iff (p : Processor) (worker : Nat) (x : Tagged) :
    (∃ i, x ∈ (p.workers i).held) ↔
      x ∈ (p.workers worker).held ∨ ∃ i, i ≠ worker ∧ x ∈ (p.workers i).held := by
  have hset : System.setWorker p worker (p.workers worker) = p := by
    simp [System.setWorker]
  rw [← exists_held_setWorker p worker (p.workers worker), hset]

/-- A worker passes its events on to its next phase. -/
theorem holds_setWorker {p : Processor} {worker : Nat} {w : Worker} {queue : List Tagged}
    {permits : Nat} (hw : ∀ x, x ∈ w.held ∨ x ∈ queue ↔ x ∈ (p.workers worker).held ∨ x ∈ p.queue)
    (x : Tagged) : Holds (System.setWorker { p with queue, permits } worker w) x ↔ Holds p x := by
  unfold Holds
  rw [exists_held_setWorker, exists_held_iff p worker]
  have hplaces : ∀ {a b c d a' b' : Prop}, (a ∨ b ↔ a' ∨ b') →
      (b ∨ (a ∨ c) ∨ d ↔ b' ∨ (a' ∨ c) ∨ d) := by
    intro a b c d a' b' h
    rw [← or_assoc, ← or_assoc, or_comm (a := b), h, ← or_assoc, ← or_assoc, or_comm (a := a')]
  exact hplaces (hw x)

theorem holds_drain {table worker : Nat} (h : System.step cfg sys (.drain table worker) = some sys')
    (t : Nat) (x : Tagged) : Holds (sys'.processors t) x ↔ Holds (sys.processors t) x := by
  cases moves_of_step h with
  | drain hidle hworker hqueue =>
    rw [System.processors_setProcessor]
    split
    · next ht =>
      subst ht
      refine holds_setWorker ?_ x
      intro y
      rw [hidle]
      have hqueue := List.mem_append (a := y) (s := (sys.processors t).drained)
        (t := (sys.processors t).queue.drop (min 10 (sys.processors t).queue.length))
      rw [Processor.drained, List.take_append_drop] at hqueue
      rw [hqueue]
      simp [Worker.held, Processor.drained]
    · rfl

theorem holds_acquire {table worker : Nat}
    (h : System.step cfg sys (.acquire table worker) = some sys') (t : Nat) (x : Tagged) :
    Holds (sys'.processors t) x ↔ Holds (sys.processors t) x := by
  cases moves_of_step h with
  | acquire hwaiting hpermits =>
    rw [System.processors_setProcessor]
    split
    · next ht =>
      subst ht
      refine holds_setWorker ?_ x
      intro y
      rw [hwaiting]
      rfl
    · rfl

theorem holds_survey (h : System.step cfg sys .survey = some sys') :
    sys'.processors = sys.processors ∧ EmptyHanded sys' := by
  cases moves_of_step h with
  | surveyFirst | surveyNext => exact ⟨rfl, nofun⟩

theorem queue_afterSteal {p : Processor} {count : Nat} (h : p.stolen count = []) :
    (p.afterSteal count).queue = p.queue := by
  have hlength := congrArg List.length h
  rw [Processor.stolen, List.length_take, List.length_reverse, List.length_nil] at hlength
  refine List.take_of_length_le ?_
  omega

theorem holds_steal (hno : StealsNothing sys .steal)
    (h : System.step cfg sys .steal = some sys') :
    (∀ t x, Holds (sys'.processors t) x ↔ Holds (sys.processors t) x) ∧ EmptyHanded sys' := by
  cases moves_of_step h with
  | @steal sizes small large count hsurveying hplan =>
    have hstolen := hno sizes small large count hsurveying hplan
    refine ⟨?_, ?_⟩
    · intro t x
      show Holds ((sys.setProcessor large _).processors t) x ↔ _
      rw [System.processors_setProcessor]
      split
      · next ht =>
        subst ht
        simp only [Holds, queue_afterSteal hstolen]
        rfl
      · rfl
    · intro small' stolen hmoving
      cases hmoving
      exact hstolen
  | leave hsurveying hplan => exact ⟨fun _ _ => Iff.rfl, nofun⟩

theorem holds_settle (hempty : EmptyHanded sys) (h : System.step cfg sys .settle = some sys') :
    (∀ t x, Holds (sys'.processors t) x ↔ Holds (sys.processors t) x) ∧ EmptyHanded sys' := by
  cases moves_of_step h with
  | @settle small stolen hmoving =>
    have hstolen := hempty small stolen hmoving
    refine ⟨?_, nofun⟩
    intro t x
    show Holds ((sys.setProcessor small _).processors t) x ↔ _
    rw [System.processors_setProcessor]
    split
    · next ht =>
      subst ht
      simp only [Holds, Processor.enqueueEvents, hstolen, List.append_nil]
    · rfl

/-- Only `enqueue` numbers events. -/
theorem nextSeq_step {l : Parallel.Label} (h : System.step cfg sys l = some sys')
    (hl : ∀ table events, l ≠ .enqueue table events) : sys'.nextSeq = sys.nextSeq := by
  cases moves_of_step h with
  | enqueue table events => exact absurd rfl (hl table events)
  | _ => rfl

/-- Only the three steps of `balance_work` change what it has in hand. -/
theorem balance_step {l : Parallel.Label} (h : System.step cfg sys l = some sys')
    (hl : l ≠ .survey ∧ l ≠ .steal ∧ l ≠ .settle) : sys'.balance = sys.balance := by
  cases moves_of_step h with
  | surveyFirst | surveyNext => exact absurd rfl hl.1
  | steal | leave => exact absurd rfl hl.2.1
  | settle => exact absurd rfl hl.2.2
  | _ => rfl

theorem EmptyHanded.same (h : EmptyHanded sys) (hbalance : sys'.balance = sys.balance) :
    EmptyHanded sys' := by
  intro small stolen hmoving
  exact h small stolen (hbalance ▸ hmoving)

/-- A step that passes events on leaves each with its table. -/
theorem holds_passOn {l : Parallel.Label} (hl : passesOn l = true) (hno : StealsNothing sys l)
    (hempty : EmptyHanded sys) (h : System.step cfg sys l = some sys') :
    (∀ t x, Holds (sys'.processors t) x ↔ Holds (sys.processors t) x) ∧ EmptyHanded sys' := by
  cases l with
  | drain table worker => exact ⟨holds_drain h, hempty.same (balance_step h ⟨nofun, nofun, nofun⟩)⟩
  | acquire table worker =>
    exact ⟨holds_acquire h, hempty.same (balance_step h ⟨nofun, nofun, nofun⟩)⟩
  | survey =>
    obtain ⟨hprocessors, hempty'⟩ := holds_survey h
    exact ⟨fun t x => by rw [hprocessors], hempty'⟩
  | steal => exact holds_steal hno h
  | settle => exact holds_settle hempty h
  | enqueue | send | forward => cases hl

theorem holds_enqueue {table : Nat} {events : List Event}
    (h : System.step cfg sys (.enqueue table events) = some sys') (t : Nat) (x : Tagged) :
    Holds (sys'.processors t) x ↔
      Holds (sys.processors t) x ∨ t = table ∧ x ∈ tag sys.nextSeq events := by
  simp only [System.step, Option.some.injEq] at h
  subst h
  show Holds ((sys.setProcessor table _).processors t) x ↔ _
  rw [System.processors_setProcessor]
  split
  · next ht =>
    subst ht
    simp only [Holds, Processor.enqueueEvents, List.mem_append, true_and]
    exact or_right_comm
  · next ht => simp [ht]

/-- The worker has nothing in hand any more, and the channel may have got a batch. -/
theorem holds_finish {p : Processor} {worker permits : Nat} {w : Worker} {events : List Tagged}
    {results sent : List (List Tagged)} (hworking : p.workers worker = .working events)
    (hw : w.held = []) (hresults : results = p.results ++ sent) (x : Tagged) :
    (Holds (System.setWorker { p with permits, results } worker w) x →
      Holds p x ∨ ∃ batch ∈ sent, x ∈ batch) ∧
    (Holds p x → Holds (System.setWorker { p with permits, results } worker w) x ∨ x ∈ events) ∧
    ∀ batch ∈ sent, x ∈ batch →
      Holds (System.setWorker { p with permits, results } worker w) x := by
  unfold Holds
  rw [exists_held_setWorker, exists_held_iff p worker, hw, hworking, hresults]
  refine ⟨?_, ?_, ?_⟩
  · intro hx
    rcases hx with hqueue | (hnone | hother) | ⟨batch, hbatch, hx⟩
    · exact .inl (.inl hqueue)
    · cases hnone
    · exact .inl (.inr (.inl (.inr hother)))
    · rcases List.mem_append.mp hbatch with hold | hnew
      · exact .inl (.inr (.inr ⟨batch, hold, hx⟩))
      · exact .inr ⟨batch, hnew, hx⟩
  · intro hx
    rcases hx with hqueue | (hevents | hother) | ⟨batch, hbatch, hx⟩
    · exact .inl (.inl hqueue)
    · exact .inr hevents
    · exact .inl (.inr (.inl (.inr hother)))
    · exact .inl (.inr (.inr ⟨batch, List.mem_append_left _ hbatch, hx⟩))
  · intro batch hbatch hx
    exact .inr (.inr ⟨batch, List.mem_append_right _ hbatch, hx⟩)

/-- The step of a worker that ends its batch: a panic, nothing to send, or a batch sent. -/
theorem send_cases {table worker : Nat} {events : List Tagged}
    (hworking : (sys.processors table).workers worker = .working events)
    (h : System.step cfg sys (.send table worker) = some sys') :
    ∃ permits w sent, w.held = [] ∧
      sys' = sys.setProcessor table (System.setWorker { sys.processors table with
        permits, results := (sys.processors table).results ++ sent } worker w) ∧
      (processBatch cfg.rt (cfg.stages table) events = none ∧ sent = [] ∨
        ∃ processed, processBatch cfg.rt (cfg.stages table) events = some processed ∧
          sent.flatten = processed) := by
  cases moves_of_step h with
  | @send _ _ events' processed results hworking' hprocessed hresults =>
    obtain rfl : events = events' := by
      rw [hworking'] at hworking
      cases hworking
      rfl
    rcases hresults with ⟨rfl, rfl⟩ | ⟨-, -, rfl⟩
    · refine ⟨(sys.processors table).permits + events.length, .idle, [], rfl, ?_,
        .inr ⟨[], hprocessed, rfl⟩⟩
      rw [List.append_nil]
    · exact ⟨_, .idle, [processed], rfl, rfl, .inr ⟨processed, hprocessed, by simp⟩⟩
  | @panic _ _ events' hworking' hpanic =>
    obtain rfl : events = events' := by
      rw [hworking'] at hworking
      cases hworking
      rfl
    refine ⟨(sys.processors table).permits + events.length, .dead, [], rfl, ?_,
      .inl ⟨hpanic, rfl⟩⟩
    rw [List.append_nil]

/-- What a table has in flight after a worker's batch comes from what it had before. -/
theorem holds_of_send {table worker : Nat} {events : List Tagged}
    (hworking : (sys.processors table).workers worker = .working events)
    (h : System.step cfg sys (.send table worker) = some sys') {t : Nat} {x : Tagged}
    (hx : Holds (sys'.processors t) x) : Holds (sys.processors t) x ∨
      t = table ∧ ∃ y ∈ events, MadeOf cfg.rt (cfg.stages table) x y := by
  obtain ⟨permits, w, sent, hw, rfl, hbatch⟩ := send_cases hworking h
  rw [System.processors_setProcessor] at hx
  split at hx
  · next ht =>
    subst ht
    rcases (holds_finish hworking hw rfl x).1 hx with hold | ⟨batch, hsent, hmem⟩
    · exact .inl hold
    · rcases hbatch with ⟨-, rfl⟩ | ⟨processed, hprocessed, hflatten⟩
      · cases hsent
      · refine .inr ⟨rfl, mem_processBatch hprocessed x ?_⟩
        rw [← hflatten]
        exact List.mem_flatten_of_mem hsent hmem
  · exact .inl hx

/-- An event in flight stays so, or it is in the worker's batch. -/
theorem holds_after_send {table worker : Nat} {events : List Tagged}
    (hworking : (sys.processors table).workers worker = .working events)
    (h : System.step cfg sys (.send table worker) = some sys') {t : Nat} {x : Tagged}
    (hx : Holds (sys.processors t) x) :
    Holds (sys'.processors t) x ∨ t = table ∧ x ∈ events := by
  obtain ⟨permits, w, sent, hw, rfl, -⟩ := send_cases hworking h
  rw [System.processors_setProcessor]
  split
  · next ht =>
    subst ht
    rcases (holds_finish hworking hw rfl x).2.1 hx with hkept | hevents
    · exact .inl hkept
    · exact .inr ⟨rfl, hevents⟩
  · exact .inl hx

/-- What the stages keep of the worker's batch is in flight. -/
theorem holds_processed {table worker : Nat} {events processed : List Tagged}
    (hworking : (sys.processors table).workers worker = .working events)
    (h : System.step cfg sys (.send table worker) = some sys')
    (hprocessed : processBatch cfg.rt (cfg.stages table) events = some processed) :
    ∀ x ∈ processed, Holds (sys'.processors table) x := by
  intro x hx
  obtain ⟨permits, w, sent, hw, rfl, hbatch⟩ := send_cases hworking h
  rw [System.processors_setProcessor, if_pos rfl]
  rcases hbatch with ⟨hpanic, -⟩ | ⟨processed', hprocessed', hflatten⟩
  · rw [hpanic] at hprocessed
    cases hprocessed
  · rw [hprocessed] at hprocessed'
    cases hprocessed'
    rw [← hflatten] at hx
    obtain ⟨batch, hsent, hmem⟩ := List.mem_flatten.mp hx
    exact (holds_finish hworking hw rfl x).2.2 batch hsent hmem

theorem holds_forward {table : Nat} {batch : List Tagged} {rest : List (List Tagged)}
    (hresults : (sys.processors table).results = batch :: rest)
    (h : System.step cfg sys (.forward table) = some sys') (t : Nat) (x : Tagged) :
    Holds (sys.processors t) x ↔ Holds (sys'.processors t) x ∨ t = table ∧ x ∈ batch := by
  simp only [System.step, hresults, Option.some.injEq] at h
  subst h
  show _ ↔ Holds ((sys.setProcessor table _).processors t) x ∨ _
  rw [System.processors_setProcessor]
  split
  · next ht =>
    subst ht
    simp only [Holds, hresults, List.mem_cons, exists_eq_or_imp, true_and]
    constructor
    · intro hx
      rcases hx with hqueue | hheld | hbatch | hrest
      · exact .inl (.inl hqueue)
      · exact .inl (.inr (.inl hheld))
      · exact .inr hbatch
      · exact .inl (.inr (.inr hrest))
    · intro hx
      rcases hx with (hqueue | hheld | hrest) | hbatch
      · exact .inl hqueue
      · exact .inr (.inl hheld)
      · exact .inr (.inr (.inr hrest))
      · exact .inr (.inr (.inl hbatch))
  · next ht => simp [ht]

end ParallelResults

end MeiliBridge
