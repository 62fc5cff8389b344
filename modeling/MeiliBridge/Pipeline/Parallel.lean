import Mathlib.Data.List.Sort
import MeiliBridge.Lib.Trans
import MeiliBridge.Pipeline.SingleEvent

/-!
# The parallel processor

A table's `ParallelTableProcessor` has a shared queue that its workers drain ten events at a time, a
semaphore, and a channel through which they hand processed batches to `process_parallel_results`;
`WorkStealingCoordinator::balance_work` moves events from the largest queue to the smallest. A
`System` is the state of all of them, and `step` lets any one of them make its next move.

Every event carries the number under which it was enqueued and the event as it was enqueued; the
code knows neither, and no step looks at them.
-/

set_option autoImplicit false

namespace MeiliBridge

/-- `ParallelConfig`, with the stages of each table's processor. -/
structure ParallelConfig where
  rt : Runtime
  /-- The number of registered table processors. -/
  tables : Nat
  stages : Nat → Stages
  workersPerTable : Nat
  maxConcurrentEvents : Nat
  workStealing : Bool

namespace Parallel

/-- An event in flight, with its number and its form at the time it was enqueued. -/
structure Tagged where
  seq : Nat
  source : Event
  event : Event

inductive Worker where
  | idle
  /-- drained from the queue, permits not yet acquired -/
  | waiting (events : List Tagged)
  | working (events : List Tagged)
  /-- ended by a panic -/
  | dead

def Worker.held : Worker → List Tagged
  | .waiting events | .working events => events
  | .idle | .dead => []

structure Processor where
  queue : List Tagged
  permits : Nat
  workers : Nat → Worker
  /-- the channel of processed batches -/
  results : List (List Tagged)

/-- Where `balance_work` is. -/
inductive Balance where
  | waiting
  /-- the processors whose queue size has been read, with these sizes -/
  | surveying (sizes : List (Nat × Nat))
  /-- stolen events on their way to the queue of `small` -/
  | moving (small : Nat) (stolen : List Tagged)

structure System where
  processors : Nat → Processor
  balance : Balance
  /-- the events sent to the destination channel, in order -/
  delivered : List Tagged
  nextSeq : Nat

/-! ## The operations -/

/-- Number events from `n` on. -/
def tag (n : Nat) (events : List Event) : List Tagged :=
  events.zipIdx n |>.map fun (e, i) => ⟨i, e, e⟩

/-- `enqueue_events` -/
def Processor.enqueueEvents (p : Processor) (events : List Tagged) : Processor :=
  { p with queue := p.queue ++ events }

/-- How many events `steal_events` takes: at most half of the queue. -/
def Processor.stealCount (p : Processor) (count : Nat) : Nat := min count (p.queue.length / 2)

/-- The events `steal_events` pops off the end of the queue, last one first. -/
def Processor.stolen (p : Processor) (count : Nat) : List Tagged :=
  p.queue.reverse.take (p.stealCount count)

/-- The processor after `steal_events` -/
def Processor.afterSteal (p : Processor) (count : Nat) : Processor :=
  { p with queue := p.queue.take (p.queue.length - p.stealCount count) }

/-- The events a worker's tick drains. -/
def Processor.drained (p : Processor) : List Tagged := p.queue.take (min 10 p.queue.length)

/-- The processed events of a batch; `none` if one of them makes the worker panic. -/
def processBatch (rt : Runtime) (st : Stages) : List Tagged → Option (List Tagged)
  | [] => some []
  | x :: xs =>
    match ParallelTableProcessor.processSingleEvent rt st x.event with
    | .kept e => (processBatch rt st xs).map ({ x with event := e } :: ·)
    | .dropped | .failed _ => processBatch rt st xs
    | .panicked => none

/-- What `balance_work` does once it has read all sizes: steal from the largest queue for the
smallest, if they differ by more than 100. -/
def plan (sizes : List (Nat × Nat)) : Option (Nat × Nat × Nat) :=
  let queueInfo := sizes.insertionSort fun a b => a.2 ≤ b.2
  match queueInfo.head?, queueInfo.getLast? with
  | some (small, smallSize), some (large, largeSize) =>
    if smallSize + 100 < largeSize then some (small, large, (largeSize - smallSize) / 2) else none
  | _, _ => none

/-! ## The steps -/

inductive Label where
  /-- The table's distributor enqueues events. -/
  | enqueue (table : Nat) (events : List Event)
  /-- A worker's tick drains the queue. -/
  | drain (table worker : Nat)
  /-- A worker acquires its permits. -/
  | acquire (table worker : Nat)
  /-- A worker processes its batch, sends it and releases its permits. -/
  | send (table worker : Nat)
  /-- `process_parallel_results` takes a batch and sends it to the destination. -/
  | forward (table : Nat)
  /-- `balance_work` reads the next queue size. -/
  | survey
  /-- `balance_work` has read all sizes and steals. -/
  | steal
  /-- `balance_work` enqueues what it stole. -/
  | settle

namespace System

def setProcessor (s : System) (table : Nat) (p : Processor) : System :=
  { s with processors := Function.update s.processors table p }

def setWorker (p : Processor) (worker : Nat) (w : Worker) : Processor :=
  { p with workers := Function.update p.workers worker w }

def step (cfg : ParallelConfig) (s : System) : Label → Option System
  | .enqueue table events =>
    let p := s.processors table
    some { s.setProcessor table (p.enqueueEvents (tag s.nextSeq events)) with
      nextSeq := s.nextSeq + events.length }
  | .drain table worker =>
    let p := s.processors table
    match p.workers worker with
    | .idle =>
      if worker < cfg.workersPerTable ∧ p.queue ≠ [] then
        some (s.setProcessor table (setWorker
          { p with queue := p.queue.drop (min 10 p.queue.length) } worker (.waiting p.drained)))
      else none
    | _ => none
  | .acquire table worker =>
    let p := s.processors table
    match p.workers worker with
    | .waiting events =>
      if events.length ≤ p.permits then
        some (s.setProcessor table (setWorker
          { p with permits := p.permits - events.length } worker (.working events)))
      else none
    | _ => none
  | .send table worker =>
    let p := s.processors table
    match p.workers worker with
    | .working events =>
      let p := { p with permits := p.permits + events.length }
      match processBatch cfg.rt (cfg.stages table) events with
      | some [] => some (s.setProcessor table (setWorker p worker .idle))
      -- the send waits while the channel is full
      | some processed =>
        if p.results.length < 100 then
          some (s.setProcessor table (setWorker
            { p with results := p.results ++ [processed] } worker .idle))
        else none
      | none => some (s.setProcessor table (setWorker p worker .dead))
    | _ => none
  | .forward table =>
    let p := s.processors table
    match p.results with
    | [] => none
    | batch :: rest =>
      some { s.setProcessor table { p with results := rest } with
        delivered := s.delivered ++ batch }
  | .survey =>
    if cfg.workStealing ∧ 2 ≤ cfg.tables then
      match s.balance with
      | .waiting => some { s with balance := .surveying [(0, (s.processors 0).queue.length)] }
      | .surveying sizes =>
        let t := sizes.length
        if t < cfg.tables then
          some { s with balance := .surveying (sizes ++ [(t, (s.processors t).queue.length)]) }
        else none
      | .moving _ _ => none
    else none
  | .steal =>
    match s.balance with
    | .surveying sizes =>
      if sizes.length = cfg.tables then
        match plan sizes with
        | some (small, large, count) =>
          let p := s.processors large
          some { s.setProcessor large (p.afterSteal count) with
            balance := .moving small (p.stolen count) }
        | none => some { s with balance := .waiting }
      else none
    | _ => none
  | .settle =>
    match s.balance with
    | .moving small stolen =>
      some { s.setProcessor small ((s.processors small).enqueueEvents stolen) with
        balance := .waiting }
    | _ => none

/-- Nothing enqueued yet, all workers idle. -/
def start (cfg : ParallelConfig) : System where
  processors _ := ⟨[], cfg.maxConcurrentEvents, fun _ => .idle, []⟩
  balance := .waiting
  delivered := []
  nextSeq := 0

end System

/-- The parallel processors of a configuration, under every interleaving of their steps. -/
abbrev machine (cfg : ParallelConfig) : Trans.Machine System Label :=
  .ofFn (.start cfg) (System.step cfg)

end Parallel

end MeiliBridge
