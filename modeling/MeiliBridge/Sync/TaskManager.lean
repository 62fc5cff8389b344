import MeiliBridge.Destination.IndexRouting
import MeiliBridge.Lib.Trans
import MeiliBridge.Models.Event

/-!
# The task registry

The task manager keeps the configured tasks and a map of their statuses under two locks. Its command
loop handles one command at a time; creating and deleting a task take the locks one after the other,
and progress and errors may be reported in between.
-/

set_option autoImplicit false

namespace MeiliBridge

namespace SyncTaskManager

abbrev Time := Int

inductive TaskState where
  | idle
  | running
  | failed
  | paused
  | completed
  deriving DecidableEq

structure TaskStatus where
  taskId : String
  table : String
  state : TaskState
  lastPosition : Option Position
  processedCount : Nat
  errorCount : Nat
  lastError : Option String
  startedAt : Time
  lastUpdated : Time

def newStatus (task : SyncTaskConfig) (startedAt lastUpdated : Time) : TaskStatus where
  taskId := task.table
  table := task.table
  state := .idle
  lastPosition := none
  processedCount := 0
  errorCount := 0
  lastError := none
  startedAt := startedAt
  lastUpdated := lastUpdated

abbrev Statuses := Dict TaskStatus

def enterTask (clock : SyncTaskConfig → Time × Time) (statuses : Statuses)
    (task : SyncTaskConfig) : Statuses :=
  statuses.insert task.table (newStatus task (clock task).1 (clock task).2)

/-- `start` enters every configured task. -/
def initialStatuses (clock : SyncTaskConfig → Time × Time) (syncTasks : List SyncTaskConfig) :
    Statuses :=
  syncTasks.foldl (enterTask clock) ∅

/-- Change the status that `get_mut` finds. -/
def modify (statuses : Statuses) (taskId : String) (f : TaskStatus → TaskStatus) : Statuses :=
  match statuses.lookup taskId with
  | some status => statuses.insert taskId (f status)
  | none => statuses

/-! ## Under one lock -/

def setRunning (now : Time) (status : TaskStatus) : TaskStatus :=
  if status.state = .running then status
  else { status with state := .running, lastUpdated := now }

def setIdle (now : Time) (status : TaskStatus) : TaskStatus :=
  { status with state := .idle, lastUpdated := now }

def setPaused (now : Time) (status : TaskStatus) : TaskStatus :=
  if status.state = .running then { status with state := .paused, lastUpdated := now } else status

def setResumed (now : Time) (status : TaskStatus) : TaskStatus :=
  if status.state = .paused then { status with state := .running, lastUpdated := now } else status

def startTask (now : Time) (taskId : String) (statuses : Statuses) : Statuses :=
  modify statuses taskId (setRunning now)

def stopTask (now : Time) (taskId : String) (statuses : Statuses) : Statuses :=
  modify statuses taskId (setIdle now)

def pauseTask (now : Time) (taskId : String) (statuses : Statuses) : Statuses :=
  modify statuses taskId (setPaused now)

def resumeTask (now : Time) (taskId : String) (statuses : Statuses) : Statuses :=
  modify statuses taskId (setResumed now)

def setProgress (now : Time) (position : Position) (processedCount : Nat) (status : TaskStatus) :
    TaskStatus :=
  { status with
    lastPosition := some position
    processedCount := processedCount
    lastUpdated := now }

def addError (now : Time) (error : String) (status : TaskStatus) : TaskStatus :=
  let status := { status with
    errorCount := status.errorCount + 1
    lastError := some error
    lastUpdated := now }
  if 10 < status.errorCount then { status with state := .failed } else status

/-- Change the status of a task that must be there. -/
def modifyFound (statuses : Statuses) (taskId : String) (f : TaskStatus → TaskStatus) :
    Result Statuses :=
  if taskId ∈ statuses then .ok (modify statuses taskId f)
  else .error (.pipeline s!"Task '{taskId}' not found")

def updateTaskProgress (now : Time) (taskId : String) (position : Position) (processedCount : Nat)
    (statuses : Statuses) : Result Statuses :=
  modifyFound statuses taskId (setProgress now position processedCount)

def reportTaskError (now : Time) (taskId error : String) (statuses : Statuses) : Result Statuses :=
  modifyFound statuses taskId (addError now error)

/-- What `create_task` does to the configuration -/
def addTask (syncTasks : List SyncTaskConfig) (task : SyncTaskConfig) :
    Result (List SyncTaskConfig) :=
  if syncTasks.any fun t => t.table == task.table then
    .error (.validation s!"Task for table '{task.table}' already exists")
  else .ok (syncTasks ++ [task])

/-! ## The command loop -/

inductive TaskCommand where
  | start (taskId : String)
  | stop (taskId : String)
  | pause (taskId : String)
  | resume (taskId : String)
  | createTask (task : SyncTaskConfig)
  | deleteTask (taskId : String)

/-- What is left of the command in progress, up to the next lock -/
inductive Pending where
  | createStatus (task : SyncTaskConfig)
  | deleteConfig (taskId : String)
  | deleteStatus (taskId : String)

structure State where
  syncTasks : List SyncTaskConfig
  statuses : Statuses
  pending : Option Pending
  replies : List (Result Unit)

def State.tables (s : State) : List String := s.syncTasks.map SyncTaskConfig.table

def begun (clock : SyncTaskConfig → Time × Time) (syncTasks : List SyncTaskConfig) : State :=
  ⟨syncTasks, initialStatuses clock syncTasks, none, []⟩

inductive Label where
  | command (c : TaskCommand) (now : Time)
  /-- The command in progress takes its next lock. -/
  | proceed (startedAt lastUpdated : Time)
  | updateTaskProgress (taskId : String) (position : Position) (processedCount : Nat) (now : Time)
  | reportTaskError (taskId error : String) (now : Time)

def State.reply (s : State) (answer : Result Unit) : State :=
  { s with replies := s.replies ++ [answer] }

/-- A direct call leaves everything as it is when it fails. -/
def State.direct (s : State) : Result Statuses → State
  | .ok statuses => { s with statuses := statuses }
  | .error _ => s

def handle (s : State) (now : Time) : TaskCommand → State
  | .start taskId => { s with statuses := startTask now taskId s.statuses }
  | .stop taskId => { s with statuses := stopTask now taskId s.statuses }
  | .pause taskId => { s with statuses := pauseTask now taskId s.statuses }
  | .resume taskId => { s with statuses := resumeTask now taskId s.statuses }
  | .createTask task =>
    match addTask s.syncTasks task with
    | .ok syncTasks => { s with syncTasks := syncTasks, pending := some (.createStatus task) }
    | .error e => s.reply (.error e)
  | .deleteTask taskId =>
    { s with statuses := stopTask now taskId s.statuses, pending := some (.deleteConfig taskId) }

def proceed (s : State) (startedAt lastUpdated : Time) : Pending → State
  | .createStatus task =>
    { s with
      statuses := s.statuses.insert task.table (newStatus task startedAt lastUpdated)
      pending := none }.reply (.ok ())
  | .deleteConfig taskId =>
    { s with
      syncTasks := s.syncTasks.filter fun t => t.table != taskId
      pending := some (.deleteStatus taskId) }
  | .deleteStatus taskId =>
    { s with statuses := s.statuses.erase taskId, pending := none }.reply (.ok ())

def step (s : State) : Label → Option State
  | .command c now =>
    match s.pending with
    | none => some (handle s now c)
    | some _ => none
  | .proceed startedAt lastUpdated =>
    match s.pending with
    | some pending => some (proceed s startedAt lastUpdated pending)
    | none => none
  | .updateTaskProgress taskId position processedCount now =>
    some (s.direct (updateTaskProgress now taskId position processedCount s.statuses))
  | .reportTaskError taskId error now =>
    some (s.direct (reportTaskError now taskId error s.statuses))

def machine (clock : SyncTaskConfig → Time × Time) (syncTasks : List SyncTaskConfig) :
    Trans.Machine State Label :=
  .ofFn (begun clock syncTasks) step

end SyncTaskManager

end MeiliBridge
