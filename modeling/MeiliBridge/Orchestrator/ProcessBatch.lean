import MeiliBridge.Delivery.Manager
import MeiliBridge.Orchestrator.DeadLetter

/-!
# Processing a batch

`process_batch` with its two paths. A program returns the events left in `event_batch`: nothing
after a `clear()`, and on the error return of the at-least-once path the batch is as it was, since
no branch clears it before it fails.
-/

set_option autoImplicit false

namespace MeiliBridge

open Interaction

/-- `BatchProcessParams`: the task, whether it has a dead letter queue, and the configuration of
its at-least-once manager if it has one. -/
structure TaskParams where
  taskId : String
  deadLetterQueue : Bool
  atLeastOnce : Option AtLeastOnceConfig

namespace PipelineOrchestrator

/-- The events of a failed response, if there is a queue to hand them to. -/
def handOver (task : TaskParams) (errors : List String) (events : List Event) : TaskProg Unit :=
  if task.deadLetterQueue then deadLetterFailed task.taskId errors events else pure ()

/-! ## At-least-once delivery -/

/-- The deduplication loop: the events not yet seen, which are thereby marked as seen. -/
def deduplicate (cfg : AtLeastOnceConfig) : List Event → TaskProg (List Event)
  | [] => pure []
  | event :: events => do
    let dedupKey := createDedupKeyFromEvent event
    let duplicate ← AtLeastOnceManager.isDuplicate cfg dedupKey
    if duplicate then deduplicate cfg events
    else do
      AtLeastOnceManager.markProcessed cfg dedupKey
      let rest ← deduplicate cfg events
      pure (event :: rest)

/-- Roll back in both transaction stores. -/
def rollbackBoth (cfg : AtLeastOnceConfig) (transactionId : String) : TaskProg Unit := do
  TransactionalCheckpoint.rollback transactionId
  AtLeastOnceManager.rollback cfg transactionId

/-- What follows the destination's answer. -/
def settleAnswer (cfg : AtLeastOnceConfig) (task : TaskParams) (transactionId : String)
    (position : Position) (deduplicatedBatch : List Event) : Answer → TaskProg (List Event)
  | .response response =>
    if response.failedCount = 0 then do
      TransactionalCheckpoint.commit transactionId
      AtLeastOnceManager.commit cfg transactionId
      Env.setCheckpoint task.taskId position
      pure []
    else do
      rollbackBoth cfg transactionId
      handOver task response.errors deduplicatedBatch
      throwPipeline s!"Batch processing failed with {response.failedCount} errors"
  | .error e => do
    rollbackBoth cfg transactionId
    .fail (.err e)
  | .dropped => do
    rollbackBoth cfg transactionId
    throwPipeline "No response from destination"
  | .sendFailed => do
    rollbackBoth cfg transactionId
    throwPipeline "Send failed: channel closed"

/-- Prepare the transaction, send the events that are left and settle the answer. -/
def deliver (cfg : AtLeastOnceConfig) (task : TaskParams) (transactionId : String)
    (position : Position) (deduplicatedBatch : List Event) : TaskProg (List Event) := do
  let prepared ← TransactionalCheckpoint.prepare transactionId
  if ¬ prepared then do
    AtLeastOnceManager.rollback cfg transactionId
    throwPipeline "Transaction prepare failed"
  else do
    let answer ← Env.processEvents deduplicatedBatch
    settleAnswer cfg task transactionId position deduplicatedBatch answer

/-- A call from the point where it has its transaction id. -/
def transact (cfg : AtLeastOnceConfig) (task : TaskParams) (eventBatch : List Event)
    (position : Position) (transactionId : String) : TaskProg (List Event) := do
  TransactionalCheckpoint.beginTransaction transactionId task.taskId position
  let deduplicatedBatch ← deduplicate cfg eventBatch
  if deduplicatedBatch = [] then pure []
  else deliver cfg task transactionId position deduplicatedBatch

/-- `process_batch_with_at_least_once` -/
def processBatchWithAtLeastOnce (cfg : AtLeastOnceConfig) (task : TaskParams)
    (eventBatch : List Event) : TaskProg (List Event) :=
  match eventBatch.getLast? with
  -- `event_batch.last().unwrap()`
  | none => .fail .panic
  | some last =>
    match extractPositionFromEvent last with
    | none => pure []
    | some position => do
      let transactionId ← AtLeastOnceManager.beginTransaction cfg task.taskId
      transact cfg task eventBatch position transactionId

/-! ## Standard delivery -/

/-- Hand the failed events over, if there are any. -/
def handOverFailed (task : TaskParams) (eventBatch : List Event) (response : DestinationResponse) :
    TaskProg Unit :=
  if response.failedCount = 0 then pure () else handOver task response.errors eventBatch

/-- Move the in-memory checkpoint, if the response has a position. -/
def moveCheckpoint (task : TaskParams) : Option Position → TaskProg Unit
  | some position => Env.setCheckpoint task.taskId position
  | none => pure ()

/-- What the standard path does with the destination's answer. -/
def settleStandard (task : TaskParams) (eventBatch : List Event) : Answer → TaskProg Unit
  | .response response => do
    handOverFailed task eventBatch response
    moveCheckpoint task response.lastPosition
  | .error _ | .dropped | .sendFailed => pure ()

/-- The standard path of `process_batch`, which clears the batch in the end whatever happened. -/
def processBatchStandard (task : TaskParams) (eventBatch : List Event) : TaskProg (List Event) := do
  let answer ← Env.processEvents eventBatch
  settleStandard task eventBatch answer
  pure []

/-- `process_batch` -/
def processBatch (task : TaskParams) (eventBatch : List Event) : TaskProg (List Event) :=
  if eventBatch = [] then pure []
  else
    match task.atLeastOnce with
    | some cfg => do
      let outcome ← (processBatchWithAtLeastOnce cfg task eventBatch).attempt
      match outcome with
      | .ok eventBatch => pure eventBatch
      -- the error is logged, and the batch is as it was
      | .error (.err _) => pure eventBatch
      | .error .panic => .fail .panic
    | none => processBatchStandard task eventBatch

end PipelineOrchestrator

end MeiliBridge
