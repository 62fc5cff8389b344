import MeiliBridge.Orchestrator.EventStream
import MeiliBridge.Pipeline.CdcCoordinator

/-!
# Replication from PostgreSQL

A replication slot is a cursor in the write-ahead log: `pg_logical_slot_get_changes` returns the
rows it has not passed and moves it past them. The consumer polls it, parses what it gets and sends
the events to the coordinator, which puts them in the task's channel; the pipeline takes them from
there, and the persistence task stores what it finds in the in-memory checkpoint. All of this is one
`Process`, and a crash leaves only the log, the slot and the checkpoint storage.

`start()` hands the earliest stored position to the adapter, and `get_changes` hands it to the
consumer, which only logs it: the query has no position. `acknowledge` is called nowhere.
-/

set_option autoImplicit false

namespace MeiliBridge

open Interaction Trans

/-! ## The adapter -/

/-- What `get_changes` reads of a `PostgresAdapter`. -/
structure PostgresAdapter where
  lastLsn : Option String

namespace PostgresAdapter

/-- `set_start_position`, where `parses` tells which texts are an LSN -/
def setStartPosition (parses : String → Bool) (_ : PostgresAdapter) : Position →
    Result PostgresAdapter
  | .postgreSQL lsn =>
    if parses lsn then .ok ⟨some lsn⟩ else .error (.source s!"Invalid LSN: {lsn}")
  | _ => .error (.source "Invalid position type for PostgreSQL")

/-- The `start_lsn` of `get_changes`: the position that was set, or that of the slot. -/
def startLsn (a : PostgresAdapter) (slotLsn : Option String) : Option String :=
  a.lastLsn.or slotLsn

end PostgresAdapter

/-- The earliest position that `start()` finds among the loaded checkpoints. -/
def earliestPosition (loads : List Checkpoint) : Option Position :=
  loads.foldl (fun earliest cp =>
    match earliest with
    | none => some cp.position
    | some current => if cp.position.isAfter current then some current else some cp.position) none

namespace Replication

/-! ## The slot and the consumer -/

/-- A row of the slot's changes. -/
structure Row where
  lsn : String
  xid : String
  data : String

/-- The slot, with the number of rows of the log that it has passed. -/
structure Slot where
  plugin : String
  confirmed : Nat

/-- `ReplicationSlotManager::create_slot`, on a log of this length -/
def Slot.createSlot (logLength : Nat) (slot : Slot) : Slot :=
  if slot.plugin = "test_decoding" then slot else ⟨"test_decoding", logLength⟩

/-- What `start_replication` does to the slot before it starts to poll. -/
def Slot.startReplication (logLength : Nat) (slot : Slot) : Slot :=
  if slot.plugin = "pgoutput" then ⟨"test_decoding", logLength⟩ else slot

/-- Where the polling task is. -/
inductive Consumer where
  | polling (consecutiveErrors : Nat)
  /-- sending what it makes of the rows -/
  | sending (rows : List Row)
  /-- about to send the error after which it ends -/
  | reporting (consecutiveErrors : Nat)
  | stopped

/-- `MAX_CONSECUTIVE_ERRORS` -/
def maxConsecutiveErrors : Nat := 5

/-- `start_test_decoding_polling`, which only logs the position it is given -/
def startTestDecodingPolling (_startLsn : Option String) : Consumer := .polling 0

/-- After a query that failed. -/
def Consumer.afterError (consecutiveErrors : Nat) (connectionLost : Bool) : Consumer :=
  if connectionLost ∨ maxConsecutiveErrors ≤ consecutiveErrors + 1 then
    .reporting (consecutiveErrors + 1)
  else .polling (consecutiveErrors + 1)

/-- The error the consumer sends before it ends. -/
def lostConnection (consecutiveErrors : Nat) : MeiliBridgeError :=
  .source s!"Database connection lost after {consecutiveErrors} consecutive errors"

/-! ## The process -/

structure Setup where
  /-- `parse_test_decoding_message` -/
  decode : String → String → Result (Option Event)
  /-- which texts are an LSN -/
  parsesLsn : String → Bool
  /-- the tables of the source's tasks -/
  tables : List String
  /-- the table of the task, and its pipeline -/
  table : String
  params : EventStreamParams
  /-- the task goes the parallel path -/
  parallel : Bool

structure Process where
  adapter : PostgresAdapter
  consumer : Option Consumer
  coordinator : CdcCoordinator.State
  stream : StreamState
  /-- what the persistence task has read of the in-memory checkpoint and is not yet stored -/
  saving : List Position

/-- `start()` with the checkpoints it has loaded, in a process that works on `w`. -/
def boot (setup : Setup) (adapter : PostgresAdapter) (loads : List Checkpoint) (w : World) :
    Process where
  adapter := adapter
  consumer := none
  coordinator := CdcCoordinator.registered setup.tables
  stream :=
    ⟨{ w with checkpoints := loads.foldl (fun m cp => m.insert cp.taskId cp.position) ∅ },
      [], [], true⟩
  saving := []

/-- The adapter that `start()` gives the coordinator. -/
def startAdapter (setup : Setup) (loads : List Checkpoint) : Result PostgresAdapter :=
  match earliestPosition loads with
  | some position => PostgresAdapter.setStartPosition setup.parsesLsn ⟨none⟩ position
  | none => .ok ⟨none⟩

/-- `mpsc::channel(1000)` of `get_changes` -/
def eventCapacity : Nat := 1000

namespace Process

/-- The stream's receiver is gone. -/
def Closed (p : Process) : Prop := p.coordinator.loop = .stopped

/-- There is room in the event channel. -/
def HasRoom (p : Process) : Prop := p.coordinator.incoming.length < eventCapacity

def setWorld (p : Process) (w : World) : Process :=
  { p with stream := { p.stream with world := w } }

/-- The in-memory checkpoint of the task moves. -/
def move (p : Process) (setup : Setup) (position : Position) : Process :=
  p.setWorld { p.stream.world with
    checkpoints := p.stream.world.checkpoints.insert setup.params.task.taskId position }

/-- What the loop of the pipeline can find next. -/
def Offers (p : Process) (setup : Setup) : Arm → Prop
  | .event (.ok e) => ∃ ch m rest, p.coordinator.taskChannels setup.table = some ch ∧
      ch.queue = m :: rest ∧ m.event = e
  | .event (.error _) => False
  | .tick | .shutdown _ => True

/-- The coordinator after the pipeline has taken what it found. -/
def afterArm (p : Process) (setup : Setup) : Arm → CdcCoordinator.State
  | .event _ =>
    match p.coordinator.taskChannels setup.table with
    | some ch => p.coordinator.setChannel setup.table { ch with queue := ch.queue.tail }
    | none => p.coordinator
  | .tick | .shutdown _ => p.coordinator

end Process

/-! ## The steps -/

inductive Label where
  /-- a change is committed at the source -/
  | commit (row : Row)
  /-- the coordinator's stream opens -/
  | getChanges (slotLsn : Option String)
  | poll
  | pollFails (connectionLost : Bool)
  | report
  | send
  | endRows
  | stopConsumer
  | coordinate (l : CdcCoordinator.Label)
  | turn (arm : Arm)
  /-- the parallel path takes an event, and moves the in-memory checkpoint -/
  | takeParallel
  | moveParallel (position : Position)
  | readCheckpoint
  | flush (cp : Checkpoint) (c : Choice)
  /-- a later save takes the place of an earlier one in the manager's buffer -/
  | supersede
  /-- a cleanup deletes the task's record -/
  | cleanUp (c : Choice)
  | crash (w : World)
  | restart (loads : List Checkpoint) (w : World)

/-- The coordinator's steps that involve neither the consumer nor the task. -/
def coordinatorOwn (table : String) : CdcCoordinator.Label → Bool
  | .arrive _ | .start true => false
  | .recv name => name ≠ table
  | _ => true

/-- The steps that leave the slot alone. -/
inductive ProcessStep (setup : Setup) : Process → Label → Process → Prop
  | pollFails {p : Process} {n : Nat} {connectionLost : Bool}
      (hconsumer : p.consumer = some (.polling n)) :
      ProcessStep setup p (.pollFails connectionLost)
        { p with consumer := some (.afterError n connectionLost) }
  | report {p : Process} {n : Nat} (hconsumer : p.consumer = some (.reporting n))
      (hroom : p.HasRoom) :
      ProcessStep setup p .report
        { p with
          consumer := some .stopped
          coordinator := p.coordinator.arrive (.error (lostConnection n)) }
  | reportClosed {p : Process} {n : Nat} (hconsumer : p.consumer = some (.reporting n))
      (hclosed : p.Closed) : ProcessStep setup p .report { p with consumer := some .stopped }
  | send {p : Process} {row : Row} {rest : List Row} {event : Event}
      (hconsumer : p.consumer = some (.sending (row :: rest)))
      (hdecode : setup.decode row.lsn row.data = .ok (some event)) (hroom : p.HasRoom) :
      ProcessStep setup p .send
        { p with
          consumer := some (.sending rest)
          coordinator := p.coordinator.arrive (.ok event) }
  | sendClosed {p : Process} {row : Row} {rest : List Row} {event : Event}
      (hconsumer : p.consumer = some (.sending (row :: rest)))
      (hdecode : setup.decode row.lsn row.data = .ok (some event)) (hclosed : p.Closed) :
      ProcessStep setup p .send { p with consumer := some .stopped }
  /-- the row has no event, or is logged as one that does not parse -/
  | skipRow {p : Process} {row : Row} {rest : List Row}
      (hconsumer : p.consumer = some (.sending (row :: rest)))
      (hdecode : ∀ event, setup.decode row.lsn row.data ≠ .ok (some event)) :
      ProcessStep setup p .send { p with consumer := some (.sending rest) }
  | endRows {p : Process} (hconsumer : p.consumer = some (.sending [])) (hopen : ¬ p.Closed) :
      ProcessStep setup p .endRows { p with consumer := some (.polling 0) }
  | endRowsClosed {p : Process} (hconsumer : p.consumer = some (.sending [])) (hclosed : p.Closed) :
      ProcessStep setup p .endRows { p with consumer := some .stopped }
  | stopConsumer {p : Process} {n : Nat} (hconsumer : p.consumer = some (.polling n)) :
      ProcessStep setup p .stopConsumer { p with consumer := some .stopped }
  | coordinate {p : Process} {l : CdcCoordinator.Label} {coordinator : CdcCoordinator.State}
      (hown : coordinatorOwn setup.table l = true)
      (h : CdcCoordinator.Step p.coordinator l coordinator) :
      ProcessStep setup p (.coordinate l) { p with coordinator }
  | turn {p : Process} {arm : Arm} {stream : StreamState} (hpath : setup.parallel = false)
      (hoffers : p.Offers setup arm)
      (h : (streamMachine setup.params fun _ => True).step p.stream arm stream) :
      ProcessStep setup p (.turn arm) { p with stream, coordinator := p.afterArm setup arm }
  | takeParallel {p : Process} {e : Event} (hpath : setup.parallel = true)
      (hoffers : p.Offers setup (.event (.ok e))) :
      ProcessStep setup p .takeParallel
        { p with coordinator := p.afterArm setup (.event (.ok e)) }
  | moveParallel {p : Process} {position : Position} (hpath : setup.parallel = true) :
      ProcessStep setup p (.moveParallel position) (p.move setup position)
  | readCheckpoint {p : Process} {position : Position}
      (hread : p.stream.world.checkpoints.lookup setup.params.task.taskId = some position) :
      ProcessStep setup p .readCheckpoint { p with saving := p.saving ++ [position] }
  | flush {p : Process} {position : Position} {rest : List Position} {cp : Checkpoint} {c : Choice}
      (hsaving : p.saving = position :: rest) (htask : cp.taskId = setup.params.task.taskId)
      (hposition : cp.position = position) :
      ProcessStep setup p (.flush cp c)
        { p.setWorld (p.stream.world.exec c (.saveCheckpoint cp)).2 with saving := rest }
  | supersede {p : Process} {position : Position} {rest : List Position}
      (hsaving : p.saving = position :: rest) (hlater : rest ≠ []) :
      ProcessStep setup p .supersede { p with saving := rest }
  | cleanUp {p : Process} {c : Choice} :
      ProcessStep setup p (.cleanUp c)
        (p.setWorld (p.stream.world.exec c (.deleteCheckpoint setup.params.task.taskId)).2)

/-- The process, or what a crash has left. -/
inductive Phase where
  | up (p : Process)
  | down (storage : Dict Checkpoint)

/-- What the last crash left: the length of the log, and the task's record. -/
structure Crash where
  logLength : Nat
  checkpoint : Option Checkpoint

structure State where
  /-- the rows that the source's changes have made, in order -/
  log : List Row
  slot : Slot
  phase : Phase
  crash : Option Crash
  /-- the places in the log of the rows that the process has read since its start -/
  read : List Nat
  /-- the process has read the slot since its start -/
  polled : Bool

/-- The world a crash of the process can leave, in a turn of the pipeline or between two. -/
def Process.CrashesIn (p : Process) (setup : Setup) (w : World) : Prop :=
  w = p.stream.world ∨ setup.parallel = false ∧ p.stream.running = true ∧
    ∃ arm, p.Offers setup arm ∧ Visits World.handler (fun _ => True)
      (PipelineOrchestrator.processEventStreamTurn setup.params p.stream.batch arm)
      p.stream.world w

inductive Step (setup : Setup) : State → Label → State → Prop
  | commit {s : State} {row : Row} : Step setup s (.commit row) { s with log := s.log ++ [row] }
  | getChanges {s : State} {p : Process} {coordinator : CdcCoordinator.State}
      {slotLsn : Option String} (hup : s.phase = .up p)
      (h : CdcCoordinator.Step p.coordinator (.start true) coordinator) :
      Step setup s (.getChanges slotLsn)
        { s with
          slot := s.slot.startReplication s.log.length
          phase := .up
            { p with
              coordinator
              consumer := some (startTestDecodingPolling (p.adapter.startLsn slotLsn)) } }
  | poll {s : State} {p : Process} {n : Nat} (hup : s.phase = .up p)
      (hconsumer : p.consumer = some (.polling n)) :
      Step setup s .poll
        { s with
          slot := { s.slot with confirmed := s.log.length }
          phase := .up { p with consumer := some (.sending (s.log.drop s.slot.confirmed)) }
          read := s.read ++ List.range' s.slot.confirmed (s.log.length - s.slot.confirmed)
          polled := true }
  | process {s : State} {p p' : Process} {l : Label} (hup : s.phase = .up p)
      (h : ProcessStep setup p l p') : Step setup s l { s with phase := .up p' }
  | crash {s : State} {p : Process} {w : World} (hup : s.phase = .up p)
      (hcrash : p.CrashesIn setup w) :
      Step setup s (.crash w)
        { s with
          phase := .down w.storage
          crash := some ⟨s.log.length, w.storage.lookup setup.params.task.taskId⟩
          read := []
          polled := false }
  | restart {s : State} {storage : Dict Checkpoint} {adapter : PostgresAdapter}
      {loads : List Checkpoint} {w : World} (hdown : s.phase = .down storage)
      (hstorage : w.storage = storage)
      (hloads : ∀ cp ∈ loads, storage.lookup cp.taskId = some cp)
      (hadapter : startAdapter setup loads = .ok adapter) :
      Step setup s (.restart loads w)
        { s with
          slot := s.slot.createSlot s.log.length
          phase := .up (boot setup adapter loads w) }

/-- The first process has connected, and its slot is in some place of some log. -/
structure Starts (setup : Setup) (s : State) : Prop where
  up : ∃ adapter loads w, s.phase = .up (boot setup adapter loads w)
  plugin : s.slot.plugin = "test_decoding"
  confirmed : s.slot.confirmed ≤ s.log.length
  crash : s.crash = none
  read : s.read = []
  polled : s.polled = false

def machine (setup : Setup) : Machine State Label where
  init := Starts setup
  step := Step setup

end Replication

end MeiliBridge
