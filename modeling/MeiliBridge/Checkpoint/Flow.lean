import MeiliBridge.Lib.Trans
import MeiliBridge.Checkpoint.Manager
import MeiliBridge.Delivery.TransactionalCheckpoint

/-!
# How positions get into the storage

Two ways lead there. A batch of the at-least-once path writes its task's record through
`TransactionalCheckpoint`, one storage operation a step. A position put in the in-memory map is
read by the persistence task, on a tick of its interval and once more when it sees the shutdown
signal; it goes through the manager's command channel into the manager's buffer, and a flush writes
it. The persistence task reads the map under its lock and keeps the lock until the last `Save` is
sent, so the map does not change in the meantime.

`stop()` signals the shutdown and waits for the tasks it has handles of: the pipelines and the
persistence task, but not the manager, whose own shutdown signal nobody sends.
-/

set_option autoImplicit false

namespace MeiliBridge

open Trans

namespace CheckpointFlow

/-- Where a batch of a task stands, with its position. -/
inductive BatchPhase where
  | idle
  | begun (position : Position)
  | prepared (position : Position)
  /-- `commit` holds the mutex and has loaded the task's record -/
  | committing (position : Position) (loaded : Checkpoint)
  | committed (position : Position)

inductive Persistence where
  | waiting
  /-- sending what it has read from the map -/
  | saving (rest : List (String × Position)) (final : Bool)
  | finished

structure State where
  /-- the in-memory map -/
  checkpoints : Dict Position
  persistence : Persistence
  commands : List CheckpointCommand
  manager : ManagerState
  phase : String → BatchPhase
  /-- the source's positions of a task so far -/
  stream : String → List Position
  tasksDone : Bool
  shutdown : Bool
  stopped : Bool

/-- The manager's command channel. -/
def channelCapacity : Nat := 1000

inductive Label where
  /-- the standard path and the parallel path put a position in the map -/
  | move (taskId : String) (position : Position)
  | begin (taskId : String) (position : Position)
  | prepare (taskId transactionId uuid : String) (now : Nat) (reply : Reply)
  | commitLoad (taskId : String) (reply : Reply)
  | commitSave (taskId transactionId : String) (now : Nat) (reply : Reply)
  /-- the map gets the position of a committed batch -/
  | settle (taskId : String)
  /-- the commit of the two-phase transaction fails -/
  | commitFails (taskId : String)
  | rollback (taskId : String) (reply : Reply)
  /-- a stale transaction of the task that is still prepared is cleaned up -/
  | expire (taskId : String) (reply : Reply)
  | read (order : List (String × Position)) (final : Bool)
  | sendSave
  | endSaving
  /-- the periodic cleanup of checkpoints sends a command -/
  | send (cmd : CheckpointCommand)
  | receive (choice : ManagerChoice)
  | flushTick (choice : ManagerChoice)
  | signal
  | tasksFinish
  | stopReturns

/-- The record that `prepare` saves. -/
def preparedRecord (taskId transactionId uuid : String) (now : Nat) (position : Position) :
    Checkpoint :=
  ⟨uuid, taskId, position, now, TransactionalCheckpoint.preparedMetadata transactionId⟩

/-- The record that `commit` saves. -/
def committedRecord (loaded : Checkpoint) (transactionId : String) (now : Nat) : Checkpoint :=
  { loaded with metadata := TransactionalCheckpoint.committedMetadata transactionId now }

namespace State

def setPhase (s : State) (taskId : String) (phase : BatchPhase) : State :=
  { s with phase := Function.update s.phase taskId phase }

def setStorage (s : State) (storage : CheckpointMap) : State :=
  { s with manager := { s.manager with storage } }

/-- After a save, or an attempt at one. -/
def save (s : State) (reply : Reply) (cp : Checkpoint) : State :=
  s.setStorage (reply.call s.manager.storage (s.manager.storage.save cp)).2

def delete (s : State) (reply : Reply) (taskId : String) : State :=
  s.setStorage (reply.call s.manager.storage (s.manager.storage.delete taskId)).2

/-- The stored record of a task. -/
def stored (s : State) (taskId : String) : Option Checkpoint := s.manager.storage.lookup taskId

/-- The map's lock is not held by the persistence task. -/
def Unlocked (s : State) : Prop := ∀ rest final, s.persistence ≠ .saving rest final

end State

/-- A call that succeeds goes on, another one returns. -/
def onSuccess (reply : Reply) (phase : BatchPhase) : BatchPhase :=
  match reply with
  | .succeeds => phase
  | .fails _ _ => .idle

inductive Step (batchSize : Nat) : State → Label → State → Prop
  | move {s : State} {taskId : String} {position : Position} (hrun : s.tasksDone = false)
      (hfree : s.Unlocked) :
      Step batchSize s (.move taskId position)
        { s with checkpoints := s.checkpoints.insert taskId position }
  | begin {s : State} {taskId : String} {position : Position} (hrun : s.tasksDone = false)
      (hphase : s.phase taskId = .idle)
      (hstream : ∀ earlier ∈ s.stream taskId, earlier.isAfter position = false) :
      Step batchSize s (.begin taskId position)
        { s.setPhase taskId (.begun position) with
          stream := Function.update s.stream taskId (s.stream taskId ++ [position]) }
  | prepare {s : State} {taskId transactionId uuid : String} {now : Nat} {reply : Reply}
      {position : Position} (hphase : s.phase taskId = .begun position) :
      Step batchSize s (.prepare taskId transactionId uuid now reply)
        ((s.save reply (preparedRecord taskId transactionId uuid now position)).setPhase taskId
          (onSuccess reply (.prepared position)))
  | commitLoad {s : State} {taskId : String} {position : Position} {cp : Checkpoint}
      (hphase : s.phase taskId = .prepared position) (hloaded : s.stored taskId = some cp) :
      Step batchSize s (.commitLoad taskId .succeeds) (s.setPhase taskId (.committing position cp))
  | commitLoadFails {s : State} {taskId : String} {reply : Reply} {position : Position}
      (hphase : s.phase taskId = .prepared position)
      (hfails : reply ≠ .succeeds ∨ s.stored taskId = none) :
      Step batchSize s (.commitLoad taskId reply) (s.setPhase taskId .idle)
  | commitSave {s : State} {taskId transactionId : String} {now : Nat} {reply : Reply}
      {position : Position} {cp : Checkpoint}
      (hphase : s.phase taskId = .committing position cp) :
      Step batchSize s (.commitSave taskId transactionId now reply)
        ((s.save reply (committedRecord cp transactionId now)).setPhase taskId
          (onSuccess reply (.committed position)))
  | settle {s : State} {taskId : String} {position : Position}
      (hphase : s.phase taskId = .committed position) (hfree : s.Unlocked) :
      Step batchSize s (.settle taskId)
        { s.setPhase taskId .idle with checkpoints := s.checkpoints.insert taskId position }
  | commitFails {s : State} {taskId : String} {position : Position}
      (hphase : s.phase taskId = .committed position) :
      Step batchSize s (.commitFails taskId) (s.setPhase taskId .idle)
  | rollback {s : State} {taskId : String} {reply : Reply} {position : Position}
      (hphase : s.phase taskId = .prepared position) :
      Step batchSize s (.rollback taskId reply) ((s.delete reply taskId).setPhase taskId .idle)
  /-- the transaction is that of the batch, or one that an earlier batch has left open -/
  | expire {s : State} {taskId : String} {reply : Reply} {phase : BatchPhase}
      (hphase : ∀ position cp, s.phase taskId ≠ .committing position cp)
      (hnext : phase = s.phase taskId ∨
        phase = .idle ∧ ∃ position, s.phase taskId = .prepared position) :
      Step batchSize s (.expire taskId reply) ((s.delete reply taskId).setPhase taskId phase)
  | read {s : State} {order : List (String × Position)} {final : Bool}
      (hphase : s.persistence = .waiting) (hfinal : final = true → s.shutdown = true)
      (horder : order.Perm (s.checkpoints.entries.map fun entry => (entry.1, entry.2))) :
      Step batchSize s (.read order final) { s with persistence := .saving order final }
  | sendSave {s : State} {taskId : String} {position : Position}
      {rest : List (String × Position)} {final : Bool}
      (hphase : s.persistence = .saving ((taskId, position) :: rest) final)
      (hroom : s.commands.length < channelCapacity) :
      Step batchSize s .sendSave
        { s with
          persistence := .saving rest final
          commands := s.commands ++ [.save taskId position] }
  | endSaving {s : State} {final : Bool} (hphase : s.persistence = .saving [] final) :
      Step batchSize s .endSaving { s with persistence := if final then .finished else .waiting }
  | send {s : State} {cmd : CheckpointCommand}
      (hcmd : ∀ taskId position, cmd ≠ .save taskId position)
      (hroom : s.commands.length < channelCapacity) :
      Step batchSize s (.send cmd) { s with commands := s.commands ++ [cmd] }
  | receive {s : State} {choice : ManagerChoice} {cmd : CheckpointCommand}
      {rest : List CheckpointCommand} (hcommands : s.commands = cmd :: rest) :
      Step batchSize s (.receive choice)
        { s with
          commands := rest
          manager := (CheckpointManager.handle batchSize choice s.manager (.command cmd)).2 }
  | flushTick {s : State} {choice : ManagerChoice} :
      Step batchSize s (.flushTick choice)
        { s with manager := (CheckpointManager.handle batchSize choice s.manager .tick).2 }
  | signal {s : State} : Step batchSize s .signal { s with shutdown := true }
  | tasksFinish {s : State} (hsignal : s.shutdown = true)
      (hidle : ∀ taskId, s.phase taskId = .idle) :
      Step batchSize s .tasksFinish { s with tasksDone := true }
  | stopReturns {s : State} (hsignal : s.shutdown = true) (hdone : s.tasksDone = true)
      (hfinished : s.persistence = .finished) :
      Step batchSize s .stopReturns { s with stopped := true }

/-- Any stored records, of the source's stream, of which the map may have got the positions; and
nothing under way. -/
structure Starts (s : State) : Prop where
  checkpoints : ∀ taskId position, s.checkpoints.lookup taskId = some position →
    ∃ cp, s.stored taskId = some cp ∧ cp.position = position
  persistence : s.persistence = .waiting
  commands : s.commands = []
  pending : s.manager.pending = .empty
  phase : ∀ taskId, s.phase taskId = .idle
  stream : ∀ taskId cp, s.stored taskId = some cp → cp.position ∈ s.stream taskId
  tasksDone : s.tasksDone = false
  shutdown : s.shutdown = false
  stopped : s.stopped = false

/-- Runs until `stop()` has returned. -/
def machine (batchSize : Nat) : Machine State Label where
  init := Starts
  step s l s' := s.stopped = false ∧ Step batchSize s l s'

/-- Nothing is stored and nothing has happened. -/
def start : State :=
  ⟨∅, .waiting, [], ⟨.empty, .empty⟩, fun _ => .idle, fun _ => [], false, false, false⟩

theorem start_starts : Starts start :=
  ⟨nofun, rfl, rfl, rfl, fun _ => rfl, nofun, rfl, rfl, rfl⟩

/-- Every storage call succeeds. -/
def works : ManagerChoice := ⟨"3c9", 0, fun _ => .succeeds, .succeeds, .succeeds, .succeeds⟩

end CheckpointFlow

end MeiliBridge
