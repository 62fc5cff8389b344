import MeiliBridge.Delivery.TransactionalCheckpoint

/-!
# The at-least-once manager

`AtLeastOnceManager` over the deduplicator and the transaction coordinator. A batch calls all of the
coordinator but its `prepare`, of which the part that prepares the checkpoint is here.
-/

set_option autoImplicit false

namespace MeiliBridge

open Interaction

structure AtLeastOnceConfig where
  enabled : Bool
  deduplicationWindow : Nat
  transactionTimeoutSecs : Nat
  twoPhaseCommit : Bool

namespace TransactionCoordinator

/-- `begin` -/
def beginTransaction (taskId : String) : TaskProg String := do
  let uuid ← Env.newUuid
  let transactionId := s!"{taskId}-{uuid}"
  let now ← Env.clock
  orThrow (Env.twoPhaseBegin now transactionId taskId)
  pure transactionId

/-- The task id that `prepare` reads off a transaction id: what stands before the first hyphen. -/
def taskIdOf (transactionId : String) : String := ((Text.split '-' transactionId).head?).getD ""

/-- Prepare the checkpoint, if there is a handler for it. An error of the handler's `prepare` is
only logged; so is its timeout, which is a failed save here. -/
def prepareCheckpoint (transactionId : String) (position : Position) (handler : Bool) :
    TaskProg Bool :=
  if handler then do
    TransactionalCheckpoint.beginTransaction transactionId (taskIdOf transactionId) position
    let prepared ← (TransactionalCheckpoint.prepare transactionId).attempt
    match prepared with
    | .ok true => pure true
    | _ => pure false
  else pure true

/-- Commit the checkpoint, if there is a handler for it. -/
def commitCheckpoint (transactionId : String) (handler : Bool) : TaskProg Unit :=
  if handler then TransactionalCheckpoint.commit transactionId else pure ()

/-- `commit`: the checkpoint first, then the two-phase transaction. -/
def commit (transactionId : String) : TaskProg Unit := do
  let handler ← Env.checkpointHandler
  commitCheckpoint transactionId handler
  orThrow (Env.twoPhaseCommit transactionId)

/-- Roll the checkpoint back, if there is a handler for it; an error is only logged. -/
def rollbackCheckpoint (transactionId : String) (handler : Bool) : TaskProg Unit :=
  if handler then do
    let _ ← (TransactionalCheckpoint.rollback transactionId).attempt
    pure ()
  else pure ()

/-- `rollback` -/
def rollback (transactionId : String) : TaskProg Unit := do
  let handler ← Env.checkpointHandler
  rollbackCheckpoint transactionId handler
  Env.twoPhaseAbort transactionId

end TransactionCoordinator

namespace AtLeastOnceManager

/-- `is_duplicate` -/
def isDuplicate (cfg : AtLeastOnceConfig) (key : DeduplicationKey) : TaskProg Bool :=
  if ¬ cfg.enabled then pure false else Env.deduplicatorContains key

/-- `mark_processed` -/
def markProcessed (cfg : AtLeastOnceConfig) (key : DeduplicationKey) : TaskProg Unit :=
  if ¬ cfg.enabled then pure () else Env.deduplicatorAdd key

/-- `begin_transaction`: without two-phase commit every transaction has the empty id. -/
def beginTransaction (cfg : AtLeastOnceConfig) (taskId : String) : TaskProg String :=
  if ¬ cfg.twoPhaseCommit then pure "" else TransactionCoordinator.beginTransaction taskId

/-- `commit` -/
def commit (cfg : AtLeastOnceConfig) (transactionId : String) : TaskProg Unit :=
  if ¬ cfg.twoPhaseCommit then pure () else TransactionCoordinator.commit transactionId

/-- `rollback` -/
def rollback (cfg : AtLeastOnceConfig) (transactionId : String) : TaskProg Unit :=
  if ¬ cfg.twoPhaseCommit then pure () else TransactionCoordinator.rollback transactionId

end AtLeastOnceManager

end MeiliBridge
