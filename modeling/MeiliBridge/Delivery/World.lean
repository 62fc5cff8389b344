import MeiliBridge.Lib.Prog
import MeiliBridge.Delivery.Deduplication
import MeiliBridge.Delivery.TwoPhaseCommit

/-!
# What a task's batch processing works on

The managers a task shares with the others, the checkpoint storage, the dead letter queue and the
destination, as one `World`, and the operations on it. Everything the code reads from outside (the
clock, fresh identifiers, whether a storage call succeeds, what the destination answers) is a
`Choice` of the environment.

The `log` is not part of the program: it records what was sent to the destination and what became
of it, what was stored in the dead letter queue, and where the in-memory checkpoint was moved.
-/

set_option autoImplicit false

namespace MeiliBridge

open Interaction

structure DestinationResponse where
  successCount : Nat
  failedCount : Nat
  lastPosition : Option Position
  errors : List String
  deriving DecidableEq

/-- What a sender of a `ProcessEvents` command experiences. -/
inductive Answer where
  /-- the command channel is closed -/
  | sendFailed
  /-- the response channel is dropped -/
  | dropped
  | error (e : MeiliBridgeError)
  | response (r : DestinationResponse)
  deriving DecidableEq

/-- The answer to a command, and which of its events the destination has written. -/
structure Delivery where
  answer : Answer
  written : List Event
  deriving DecidableEq

structure DeadLetterEntry where
  id : String
  taskId : String
  event : ModelsEvent
  error : String
  retryCount : Nat
  createdAt : Nat
  lastRetryAt : Option Nat
  deriving DecidableEq

/-- `CheckpointTransaction` -/
structure CheckpointTransaction where
  transactionId : String
  taskId : String
  position : Position
  prepared : Bool
  committed : Bool
  createdAt : Nat
  deriving DecidableEq

/-- What is observed of a run. -/
inductive Obs where
  | processed (events : List Event) (delivery : Delivery)
  | deadLettered (taskId : String) (event : Event)
  | checkpointMoved (taskId : String) (position : Position)
  deriving DecidableEq

inductive Op where
  | clock
  | newUuid
  | loadCheckpoint (taskId : String)
  | saveCheckpoint (checkpoint : Checkpoint)
  | deleteCheckpoint (taskId : String)
  /-- Lock the transactions of `TransactionalCheckpoint`. -/
  | lockTransactions
  | setTransactions (txns : List CheckpointTransaction)
  | deduplicatorContains (key : DeduplicationKey)
  | deduplicatorAdd (key : DeduplicationKey)
  | twoPhaseBegin (now : Nat) (transactionId taskId : String)
  | twoPhaseCommit (transactionId : String)
  | twoPhaseAbort (transactionId : String)
  /-- Whether the coordinator's checkpoint handler is set. -/
  | checkpointHandler
  | processEvents (events : List Event)
  | storeDeadLetter (entry : DeadLetterEntry) (source : Event)
  | setCheckpoint (taskId : String) (position : Position)

abbrev Op.Ans : Op → Type
  | .clock => Nat
  | .newUuid => String
  | .loadCheckpoint _ => Result (Option Checkpoint)
  | .saveCheckpoint _ | .deleteCheckpoint _ => Result Unit
  | .lockTransactions => List CheckpointTransaction
  | .setTransactions _ => Unit
  | .deduplicatorContains _ => Bool
  | .deduplicatorAdd _ => Unit
  | .twoPhaseBegin _ _ _ | .twoPhaseCommit _ => Result Unit
  | .twoPhaseAbort _ => Unit
  | .checkpointHandler => Bool
  | .processEvents _ => Answer
  | .storeDeadLetter _ _ => Result Unit
  | .setCheckpoint _ _ => Unit

/-- A program of a task; it ends with a value, an error or a panic. -/
abbrev TaskProg (α : Type) := Prog Op Op.Ans Fault α

structure World where
  storage : Dict Checkpoint
  transactions : List CheckpointTransaction
  deduplicator : EventDeduplicator
  twoPhaseCommit : TwoPhaseCommit
  checkpointHandler : Bool
  /-- the in-memory checkpoints -/
  checkpoints : Dict Position
  deadLetters : Dict DeadLetterEntry
  log : List Obs

/-- What the environment decides at an operation; each operation looks at its own part. -/
structure Choice where
  now : Nat
  uuid : String
  /-- how the storage answers a call about a task -/
  storage : String → Reply
  deadLetter : Reply
  delivery : List Event → Delivery

namespace World

def observe (w : World) (o : Obs) : World := { w with log := w.log ++ [o] }

/-- The effect of an operation. -/
def exec (c : Choice) (w : World) : (o : Op) → o.Ans × World
  | .clock => (c.now, w)
  | .newUuid => (c.uuid, w)
  | .loadCheckpoint taskId =>
    match c.storage taskId with
    | .succeeds => (.ok (w.storage.lookup taskId), w)
    | .fails e _ => (.error e, w)
  | .saveCheckpoint checkpoint =>
    (c.storage checkpoint.taskId).call w
      { w with storage := w.storage.insert checkpoint.taskId checkpoint }
  | .deleteCheckpoint taskId =>
    (c.storage taskId).call w { w with storage := w.storage.erase taskId }
  | .lockTransactions => (w.transactions, w)
  | .setTransactions txns => ((), { w with transactions := txns })
  | .deduplicatorContains key => (w.deduplicator.contains key, w)
  | .deduplicatorAdd key => ((), { w with deduplicator := w.deduplicator.add key })
  | .twoPhaseBegin now transactionId taskId =>
    let (r, t) := w.twoPhaseCommit.beginTransaction now transactionId taskId
    (r, { w with twoPhaseCommit := t })
  | .twoPhaseCommit transactionId =>
    let (r, t) := w.twoPhaseCommit.commit transactionId
    (r, { w with twoPhaseCommit := t })
  | .twoPhaseAbort transactionId =>
    ((), { w with twoPhaseCommit := w.twoPhaseCommit.abort transactionId })
  | .checkpointHandler => (w.checkpointHandler, w)
  | .processEvents events =>
    let delivery := c.delivery events
    (delivery.answer, w.observe (.processed events delivery))
  | .storeDeadLetter entry source =>
    c.deadLetter.call w
      ({ w with deadLetters := w.deadLetters.insert entry.id entry }.observe
        (.deadLettered entry.taskId source))
  | .setCheckpoint taskId position =>
    ((), { w with checkpoints := w.checkpoints.insert taskId position }.observe
      (.checkpointMoved taskId position))

def handler : Handler Op Op.Ans Choice World where
  exec o c w := w.exec c o

end World

/-! ## Performing an operation -/

namespace Env

abbrev clock : TaskProg Nat := .perform Op.clock

abbrev newUuid : TaskProg String := .perform Op.newUuid

abbrev loadCheckpoint (taskId : String) : TaskProg (Result (Option Checkpoint)) :=
  .perform (Op.loadCheckpoint taskId)

abbrev saveCheckpoint (checkpoint : Checkpoint) : TaskProg (Result Unit) :=
  .perform (Op.saveCheckpoint checkpoint)

abbrev deleteCheckpoint (taskId : String) : TaskProg (Result Unit) :=
  .perform (Op.deleteCheckpoint taskId)

abbrev lockTransactions : TaskProg (List CheckpointTransaction) := .perform Op.lockTransactions

abbrev setTransactions (txns : List CheckpointTransaction) : TaskProg Unit :=
  .perform (Op.setTransactions txns)

abbrev deduplicatorContains (key : DeduplicationKey) : TaskProg Bool :=
  .perform (Op.deduplicatorContains key)

abbrev deduplicatorAdd (key : DeduplicationKey) : TaskProg Unit := .perform (Op.deduplicatorAdd key)

abbrev twoPhaseBegin (now : Nat) (transactionId taskId : String) : TaskProg (Result Unit) :=
  .perform (Op.twoPhaseBegin now transactionId taskId)

abbrev twoPhaseCommit (transactionId : String) : TaskProg (Result Unit) :=
  .perform (Op.twoPhaseCommit transactionId)

abbrev twoPhaseAbort (transactionId : String) : TaskProg Unit :=
  .perform (Op.twoPhaseAbort transactionId)

abbrev checkpointHandler : TaskProg Bool := .perform Op.checkpointHandler

abbrev processEvents (events : List Event) : TaskProg Answer := .perform (Op.processEvents events)

abbrev storeDeadLetter (entry : DeadLetterEntry) (source : Event) : TaskProg (Result Unit) :=
  .perform (Op.storeDeadLetter entry source)

abbrev setCheckpoint (taskId : String) (position : Position) : TaskProg Unit :=
  .perform (Op.setCheckpoint taskId position)

end Env

/-- `?` on the result of an operation -/
def orThrow {α : Type} (p : TaskProg (Result α)) : TaskProg α := do
  let r ← p
  .lift r.toFault

/-- `Err(MeiliBridgeError::Pipeline(msg))` -/
def throwPipeline {α : Type} (msg : String) : TaskProg α := .fail (.err (.pipeline msg))

end MeiliBridge
