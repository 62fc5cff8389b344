import Mathlib.Data.Finset.Basic
import MeiliBridge.Lib.Trans
import MeiliBridge.Models.Event

/-!
# The CDC coordinator

`CdcCoordinator::run` takes one event after another off the source's stream and
`distribute_event` puts it in the channels of the tasks that are registered under its table, with
the schema and without. Two flags make it skip an event: the global pause, read as soon as the
event is there, and the set of paused tables, read before the first channel is tried. A channel
that turns out to be full pauses its table and then blocks the loop until there is room.

The flags are set and cleared from outside by the API, by `trigger_full_sync` around a full sync and
by the backpressure handler, between any two steps of the loop. `Step` is the step relation of all
of this, and of the tasks that receive from the channels.

Every event carries the number under which it arrived, and `arrived` and `delivered` record what has
come and what was put in which channel. No step of the code reads them.
-/

set_option autoImplicit false

namespace MeiliBridge

/-! ## Table names -/

/-- The `table_name` of `distribute_event`. -/
def CdcEvent.tableName (e : CdcEvent) : String :=
  if e.schema = "" then e.table else e.schema ++ "." ++ e.table

/-- `table_name.split('.').next_back()`, for a name with a dot -/
def tableOnly (tableName : String) : Option String :=
  if '.' ∈ tableName.toList then some ((Text.split '.' tableName).getLast?.getD "") else none

/-- The names under which a task gets the event. -/
def Event.targets : Event → List String
  | .cdc e => e.tableName :: (tableOnly e.tableName).toList
  | _ => []

theorem tableOnly_ne {tableName name : String} (h : tableOnly tableName = some name) :
    name ≠ tableName := by
  simp only [tableOnly] at h
  split at h
  · next hdot =>
    cases h
    intro heq
    have hparts : Text.split '.' tableName ≠ [] := by simp [Text.split]
    rw [List.getLast?_eq_some_getLast hparts, Option.getD_some] at heq
    have hno := Text.not_mem_of_mem_split (List.getLast_mem hparts)
    rw [heq] at hno
    exact hno hdot
  · cases h

theorem Event.targets_nodup (e : Event) : e.targets.Nodup := by
  cases e with
  | cdc e =>
    show (e.tableName :: (tableOnly e.tableName).toList).Nodup
    cases h : tableOnly e.tableName with
    | none => simp
    | some name => simpa using (tableOnly_ne h).symm
  | _ => exact List.nodup_nil

namespace CdcCoordinator

/-! ## The state -/

/-- An event on its way, with the number it arrived under. -/
structure Message where
  seq : Nat
  event : Event

/-- The channel of a registered task. -/
structure TaskChannel where
  queue : List Message
  isOpen : Bool

/-- `mpsc::channel(1000)` -/
def channelCapacity : Nat := 1000

/-- Where `run` is. -/
inductive Loop where
  | notStarted
  /-- waiting for the next event -/
  | waiting
  /-- about to read the global pause -/
  | received (m : Message)
  /-- about to read the paused tables -/
  | distributing (m : Message)
  /-- about to try the channels of these names -/
  | sending (m : Message) (names : List String)
  /-- about to pause the table, because its channel was full -/
  | full (m : Message) (name : String) (rest : List String)
  /-- in the blocking send -/
  | blocked (m : Message) (name : String) (rest : List String)
  | stopped

/-- An event that has arrived, and whether it was paused at that time. -/
structure Arrival where
  event : Event
  paused : Bool

structure State where
  /-- what the stream has for the loop -/
  incoming : List (Result Message)
  taskChannels : String → Option TaskChannel
  isPaused : Bool
  pausedTables : Finset String
  loop : Loop
  arrived : List Arrival
  /-- the numbers of the events in the channels so far, with the channel's name -/
  delivered : List (Nat × String)

namespace State

/-- The event's table is paused, by its name with the schema or without. -/
def tablePaused (s : State) (e : Event) : Bool := e.targets.any (· ∈ s.pausedTables)

/-- An event or an error gets into the stream. -/
def arrive (s : State) (item : Result Event) : State :=
  match item with
  | .ok event =>
    { s with
      incoming := s.incoming ++ [.ok ⟨s.arrived.length, event⟩]
      arrived := s.arrived ++ [⟨event, s.isPaused || s.tablePaused event⟩] }
  | .error e => { s with incoming := s.incoming ++ [.error e] }

def setChannel (s : State) (name : String) (ch : TaskChannel) : State :=
  { s with taskChannels := Function.update s.taskChannels name (some ch) }

/-- The channel `ch` of this name gets the message. -/
def push (s : State) (name : String) (ch : TaskChannel) (m : Message) : State :=
  { s.setChannel name { ch with queue := ch.queue ++ [m] } with
    delivered := s.delivered ++ [(m.seq, name)] }

/-- There is no channel of this name, or its receiver is gone. -/
def Unreachable (s : State) (name : String) : Prop :=
  ∀ ch, s.taskChannels name = some ch → ch.isOpen = false

def pauseAll (s : State) : State := { s with isPaused := true }

def resumeAll (s : State) : State := { s with isPaused := false }

def pauseTable (s : State) (name : String) : State :=
  { s with pausedTables := insert name s.pausedTables }

def resumeTable (s : State) (name : String) : State :=
  { s with pausedTables := s.pausedTables.erase name }

end State

/-! ## The steps -/

inductive Label where
  | arrive (item : Result Event)
  /-- `get_changes` answers -/
  | start (succeeds : Bool)
  | receive
  | checkPaused
  | checkTable
  | trySend
  | pauseFull
  | blockedSend
  | finish
  | shutdown
  | pauseAll
  | resumeAll
  | pauseTable (name : String)
  | resumeTable (name : String)
  /-- a task takes an event out of its channel -/
  | recv (name : String)
  /-- a task drops its channel -/
  | close (name : String)

inductive Step : State → Label → State → Prop
  | arrive {s : State} {item : Result Event} : Step s (.arrive item) (s.arrive item)
  | start {s : State} {succeeds : Bool} (hloop : s.loop = .notStarted) :
      Step s (.start succeeds) { s with loop := if succeeds then .waiting else .stopped }
  | receive {s : State} {m : Message} {rest : List (Result Message)} (hloop : s.loop = .waiting)
      (hincoming : s.incoming = .ok m :: rest) :
      Step s .receive { s with incoming := rest, loop := .received m }
  | receiveError {s : State} {e : MeiliBridgeError} {rest : List (Result Message)}
      (hloop : s.loop = .waiting) (hincoming : s.incoming = .error e :: rest) :
      Step s .receive { s with incoming := rest }
  | checkPaused {s : State} {m : Message} (hloop : s.loop = .received m) :
      Step s .checkPaused { s with loop := if s.isPaused then .waiting else .distributing m }
  | checkTable {s : State} {m : Message} (hloop : s.loop = .distributing m) :
      Step s .checkTable
        { s with loop := if s.tablePaused m.event then .waiting else .sending m m.event.targets }
  | skip {s : State} {m : Message} {name : String} {rest : List String}
      (hloop : s.loop = .sending m (name :: rest)) (hno : s.Unreachable name) :
      Step s .trySend { s with loop := .sending m rest }
  | trySend {s : State} {m : Message} {name : String} {rest : List String} {ch : TaskChannel}
      (hloop : s.loop = .sending m (name :: rest)) (hch : s.taskChannels name = some ch)
      (hopen : ch.isOpen = true) (hroom : ch.queue.length < channelCapacity) :
      Step s .trySend { s.push name ch m with loop := .sending m rest }
  | trySendFull {s : State} {m : Message} {name : String} {rest : List String} {ch : TaskChannel}
      (hloop : s.loop = .sending m (name :: rest)) (hch : s.taskChannels name = some ch)
      (hopen : ch.isOpen = true) (hfull : channelCapacity ≤ ch.queue.length) :
      Step s .trySend { s with loop := .full m name rest }
  | pauseFull {s : State} {m : Message} {name : String} {rest : List String}
      (hloop : s.loop = .full m name rest) :
      Step s .pauseFull { s.pauseTable name with loop := .blocked m name rest }
  | blockedSend {s : State} {m : Message} {name : String} {rest : List String} {ch : TaskChannel}
      (hloop : s.loop = .blocked m name rest) (hch : s.taskChannels name = some ch)
      (hopen : ch.isOpen = true) (hroom : ch.queue.length < channelCapacity) :
      Step s .blockedSend { s.push name ch m with loop := .sending m rest }
  | blockedClosed {s : State} {m : Message} {name : String} {rest : List String}
      (hloop : s.loop = .blocked m name rest) (hno : s.Unreachable name) :
      Step s .blockedSend { s with loop := .sending m rest }
  | finish {s : State} {m : Message} (hloop : s.loop = .sending m []) :
      Step s .finish { s with loop := .waiting }
  | shutdown {s : State} (hloop : s.loop = .waiting) : Step s .shutdown { s with loop := .stopped }
  | pauseAll {s : State} : Step s .pauseAll s.pauseAll
  | resumeAll {s : State} : Step s .resumeAll s.resumeAll
  | pauseTable {s : State} {name : String} : Step s (.pauseTable name) (s.pauseTable name)
  | resumeTable {s : State} {name : String} : Step s (.resumeTable name) (s.resumeTable name)
  | recv {s : State} {name : String} {ch : TaskChannel} {m : Message} {rest : List Message}
      (hch : s.taskChannels name = some ch) (hqueue : ch.queue = m :: rest) :
      Step s (.recv name) (s.setChannel name { ch with queue := rest })
  | close {s : State} {name : String} {ch : TaskChannel} (hch : s.taskChannels name = some ch) :
      Step s (.close name) (s.setChannel name ⟨[], false⟩)

/-- The channels of the registered tasks are open and empty, and nothing has happened. -/
structure Starts (s : State) : Prop where
  incoming : s.incoming = []
  taskChannels : ∀ name ch, s.taskChannels name = some ch → ch = ⟨[], true⟩
  isPaused : s.isPaused = false
  pausedTables : s.pausedTables = ∅
  loop : s.loop = .notStarted
  arrived : s.arrived = []
  delivered : s.delivered = []

def machine : Trans.Machine State Label where
  init := Starts
  step := Step

/-- A change in the table `users`. -/
def usersChange : Event := .cdc ⟨.update, "users", "", [("id", .number (.ofNat 1))], none⟩

/-- `register_task` for each of these tables, on a new coordinator -/
def registered (tables : List String) : State where
  incoming := []
  taskChannels name := if name ∈ tables then some ⟨[], true⟩ else none
  isPaused := false
  pausedTables := ∅
  loop := .notStarted
  arrived := []
  delivered := []

theorem registered_starts (tables : List String) : Starts (registered tables) where
  incoming := rfl
  taskChannels name ch h := by
    simp only [registered, Option.ite_none_right_eq_some, Option.some.injEq] at h
    exact h.2.symm
  isPaused := rfl
  pausedTables := rfl
  loop := rfl
  arrived := rfl
  delivered := rfl

end CdcCoordinator

end MeiliBridge
