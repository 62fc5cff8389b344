import MeiliBridge.Config
import MeiliBridge.Pipeline.CdcCoordinator

/-!
# The backpressure manager

`BackpressureManager` keeps the last known size of each table's channel and whether it regards the
table as throttled. Every 100 ms a sweep takes a snapshot of the map, checks one table after the
other against the two watermarks, writes the changed flags back, and then sends what it decided as
events to the handler that `PipelineOrchestrator::start` spawns. The handler tells each event to
every coordinator.

The coordinators, one for each source, take their own steps in between. `fullPauses` records the
tables that a coordinator has paused because their channel was full, until somebody resumes them
there.
-/

set_option autoImplicit false

namespace MeiliBridge

/-- The two watermarks: whether a channel of this size is at the high one or above it, and whether
it is at the low one or below it. -/
structure BackpressureConfig where
  aboveHigh : Nat → Bool
  belowLow : Nat → Bool

structure ChannelMetrics where
  currentSize : Nat
  isThrottled : Bool
  deriving DecidableEq

inductive BackpressureEvent where
  | pauseSource (table : String)
  | resumeSource (table : String)
  | pauseAll
  | resumeAll
  deriving DecidableEq

namespace Backpressure

/-! ## The manager -/

/-- `update_channel_size` -/
def updateChannelSize (metrics : Dict ChannelMetrics) (table : String) (size : Nat) :
    Dict ChannelMetrics :=
  match metrics.lookup table with
  | some metric => metrics.insert table { metric with currentSize := size }
  | none => metrics.insert table ⟨size, false⟩

/-- `register_table` -/
def registerTable (metrics : Dict ChannelMetrics) (table : String) : Dict ChannelMetrics :=
  match metrics.lookup table with
  | some _ => metrics
  | none => metrics.insert table ⟨0, false⟩

/-- `is_throttled` -/
def isThrottled (metrics : Dict ChannelMetrics) (table : String) : Bool :=
  ((metrics.lookup table).map ChannelMetrics.isThrottled).getD false

/-- What a sweep decides on a table of its snapshot. -/
def decision (config : BackpressureConfig) (entry : String × ChannelMetrics) :
    Option BackpressureEvent :=
  if !entry.2.isThrottled && config.aboveHigh entry.2.currentSize then some (.pauseSource entry.1)
  else if entry.2.isThrottled && config.belowLow entry.2.currentSize then
    some (.resumeSource entry.1)
  else none

def setThrottled (metrics : Dict ChannelMetrics) (table : String) (flag : Bool) :
    Dict ChannelMetrics :=
  match metrics.lookup table with
  | some metric => metrics.insert table { metric with isThrottled := flag }
  | none => metrics

/-- The flag that the decision leaves. -/
def applyDecision (metrics : Dict ChannelMetrics) : Option BackpressureEvent → Dict ChannelMetrics
  | some (.pauseSource table) => setThrottled metrics table true
  | some (.resumeSource table) => setThrottled metrics table false
  | _ => metrics

/-- What a sweep over a snapshot sends. -/
def sweepEvents (config : BackpressureConfig) (order : List (String × ChannelMetrics)) :
    List BackpressureEvent :=
  order.filterMap (decision config)

/-- The snapshot is the map, in some order. -/
def Snapshot (metrics : Dict ChannelMetrics) (order : List (String × ChannelMetrics)) : Prop :=
  order.Perm (metrics.entries.map fun entry => (entry.1, entry.2))

/-! ## The system -/

inductive Monitor where
  | waiting
  | sweeping (checked rest : List (String × ChannelMetrics))
  | sending (events : List BackpressureEvent)

inductive Handler where
  | waiting
  /-- the coordinators of these sources are still to be told -/
  | handling (event : BackpressureEvent) (sources : List String)

structure State where
  coordinators : String → CdcCoordinator.State
  metrics : Dict ChannelMetrics
  monitor : Monitor
  /-- the channel of the handler -/
  events : List BackpressureEvent
  handler : Handler
  /-- source and table -/
  fullPauses : Finset (String × String)

/-- `mpsc::channel(100)` -/
def eventCapacity : Nat := 100

inductive Label where
  | cdc (source : String) (l : CdcCoordinator.Label)
  | updateChannelSize (table : String) (size : Nat)
  | registerTable (table : String)
  | snapshot (order : List (String × ChannelMetrics))
  | check
  | endSweep
  | emit
  | endSending
  | receive (sources : List String)
  | tell
  | endHandling

/-- What the handler does to a coordinator. -/
def eventLabel : BackpressureEvent → CdcCoordinator.Label
  | .pauseSource table => .pauseTable table
  | .resumeSource table => .resumeTable table
  | .pauseAll => .pauseAll
  | .resumeAll => .resumeAll

/-- The full-channel pauses of a source after a step of its coordinator from `c`. -/
def notePause (c : CdcCoordinator.State) (source : String) (l : CdcCoordinator.Label)
    (pauses : Finset (String × String)) : Finset (String × String) :=
  match l with
  | .pauseFull =>
    match c.loop with
    | .full _ name _ => insert (source, name) pauses
    | _ => pauses
  | .resumeTable name => pauses.erase (source, name)
  | _ => pauses

namespace State

def setCoordinator (s : State) (source : String) (c : CdcCoordinator.State) : State :=
  { s with coordinators := Function.update s.coordinators source c }

/-- A step of a coordinator, to `c`. -/
def cdc (s : State) (source : String) (l : CdcCoordinator.Label) (c : CdcCoordinator.State) :
    State :=
  { s.setCoordinator source c with
    fullPauses := notePause (s.coordinators source) source l s.fullPauses }

end State

inductive Step (config : BackpressureConfig) (sources : List String) : State → Label → State → Prop
  | cdc {s : State} {source : String} {l : CdcCoordinator.Label} {c : CdcCoordinator.State}
      (hsource : source ∈ sources) (h : CdcCoordinator.Step (s.coordinators source) l c) :
      Step config sources s (.cdc source l) (s.cdc source l c)
  | updateChannelSize {s : State} {table : String} {size : Nat} :
      Step config sources s (.updateChannelSize table size)
        { s with metrics := Backpressure.updateChannelSize s.metrics table size }
  | registerTable {s : State} {table : String} :
      Step config sources s (.registerTable table)
        { s with metrics := Backpressure.registerTable s.metrics table }
  | snapshot {s : State} {order : List (String × ChannelMetrics)} (hmonitor : s.monitor = .waiting)
      (horder : Snapshot s.metrics order) :
      Step config sources s (.snapshot order) { s with monitor := .sweeping [] order }
  | check {s : State} {checked rest : List (String × ChannelMetrics)}
      {entry : String × ChannelMetrics} (hmonitor : s.monitor = .sweeping checked (entry :: rest)) :
      Step config sources s .check
        { s with
          monitor := .sweeping (checked ++ [entry]) rest
          metrics := applyDecision s.metrics (decision config entry) }
  | endSweep {s : State} {checked : List (String × ChannelMetrics)}
      (hmonitor : s.monitor = .sweeping checked []) :
      Step config sources s .endSweep { s with monitor := .sending (sweepEvents config checked) }
  | emit {s : State} {event : BackpressureEvent} {rest : List BackpressureEvent}
      (hmonitor : s.monitor = .sending (event :: rest)) (hroom : s.events.length < eventCapacity) :
      Step config sources s .emit { s with monitor := .sending rest, events := s.events ++ [event] }
  | endSending {s : State} (hmonitor : s.monitor = .sending []) :
      Step config sources s .endSending { s with monitor := .waiting }
  | receive {s : State} {event : BackpressureEvent} {rest : List BackpressureEvent}
      {order : List String} (hhandler : s.handler = .waiting) (hevents : s.events = event :: rest)
      (horder : order.Perm sources) :
      Step config sources s (.receive order)
        { s with events := rest, handler := .handling event order }
  | tell {s : State} {event : BackpressureEvent} {source : String} {rest : List String}
      {c : CdcCoordinator.State} (hhandler : s.handler = .handling event (source :: rest))
      (h : CdcCoordinator.Step (s.coordinators source) (eventLabel event) c) :
      Step config sources s .tell
        { s.cdc source (eventLabel event) c with handler := .handling event rest }
  | endHandling {s : State} {event : BackpressureEvent}
      (hhandler : s.handler = .handling event []) :
      Step config sources s .endHandling { s with handler := .waiting }

/-- The coordinators start, the tables are registered, and nothing is throttled. -/
structure Starts (s : State) : Prop where
  coordinators : ∀ source, CdcCoordinator.Starts (s.coordinators source)
  metrics : ∀ table metric, s.metrics.lookup table = some metric → metric = ⟨0, false⟩
  monitor : s.monitor = .waiting
  events : s.events = []
  handler : s.handler = .waiting
  fullPauses : s.fullPauses = ∅

def machine (config : BackpressureConfig) (sources : List String) : Trans.Machine State Label where
  init := Starts
  step := Step config sources

/-! ## The throttled flag -/

theorem isThrottled_iff {metrics : Dict ChannelMetrics} {table : String} :
    isThrottled metrics table = true ↔
      ∃ metric, metrics.lookup table = some metric ∧ metric.isThrottled = true := by
  unfold isThrottled
  cases metrics.lookup table with
  | none => simp
  | some metric => simp

theorem isThrottled_insert (metrics : Dict ChannelMetrics) (table other : String)
    (metric : ChannelMetrics) :
    isThrottled (metrics.insert table metric) other =
      if other = table then metric.isThrottled else isThrottled metrics other := by
  by_cases h : other = table
  · subst h
    simp [isThrottled]
  · simp [isThrottled, AList.lookup_insert_ne h, h]

/-- A table's metrics are replaced, and it stays as throttled as it was. -/
theorem isThrottled_insert_same {metrics : Dict ChannelMetrics} {table : String}
    {metric : ChannelMetrics} (h : metric.isThrottled = isThrottled metrics table)
    (other : String) :
    isThrottled (metrics.insert table metric) other = isThrottled metrics other := by
  rw [isThrottled_insert]
  split
  · next heq => rw [h, heq]
  · rfl

theorem isThrottled_updateChannelSize (metrics : Dict ChannelMetrics) (table other : String)
    (size : Nat) :
    isThrottled (updateChannelSize metrics table size) other = isThrottled metrics other := by
  unfold updateChannelSize
  split
  · next metric h => exact isThrottled_insert_same (by simp [isThrottled, h]) other
  · next h => exact isThrottled_insert_same (by simp [isThrottled, h]) other

theorem isThrottled_registerTable (metrics : Dict ChannelMetrics) (table other : String) :
    isThrottled (registerTable metrics table) other = isThrottled metrics other := by
  unfold registerTable
  split
  · rfl
  · next h => exact isThrottled_insert_same (by simp [isThrottled, h]) other

theorem isThrottled_setThrottled (metrics : Dict ChannelMetrics) (table other : String)
    (flag : Bool) :
    isThrottled (setThrottled metrics table flag) other =
      if other = table ∧ (metrics.lookup table).isSome then flag
      else isThrottled metrics other := by
  unfold setThrottled
  split
  · next metric h => simp [isThrottled_insert, h]
  · next h => simp [h]

/-- A decision takes the flag from a table only if it resumes it. -/
theorem isThrottled_applyDecision {metrics : Dict ChannelMetrics} {table : String}
    {event : Option BackpressureEvent} (h : isThrottled metrics table = true)
    (hevent : event ≠ some (.resumeSource table)) :
    isThrottled (applyDecision metrics event) table = true := by
  match event, hevent with
  | some (.pauseSource other), _ =>
    rw [applyDecision, isThrottled_setThrottled]
    split
    · rfl
    · exact h
  | some (.resumeSource other), hne =>
    rw [applyDecision, isThrottled_setThrottled, if_neg]
    · exact h
    · intro heq
      exact hne (by rw [heq.1])
  | some .pauseAll, _ => exact h
  | some .resumeAll, _ => exact h
  | none, _ => exact h

/-- A sweep resumes a throttled table whose channel is at the low watermark or below it. -/
theorem resumeSource_mem_sweepEvents {config : BackpressureConfig} {metrics : Dict ChannelMetrics}
    {table : String} {metric : ChannelMetrics} (hmetric : metrics.lookup table = some metric)
    (hthrottled : metric.isThrottled = true) (hlow : config.belowLow metric.currentSize = true)
    {order : List (String × ChannelMetrics)} (horder : Snapshot metrics order) :
    .resumeSource table ∈ sweepEvents config order := by
  have hentry : (table, metric) ∈ order := by
    refine horder.mem_iff.mpr (List.mem_map.mpr ⟨⟨table, metric⟩, ?_, rfl⟩)
    exact AList.mem_lookup_iff.mp hmetric
  refine List.mem_filterMap.mpr ⟨_, hentry, ?_⟩
  simp [decision, hthrottled, hlow]

end Backpressure

end MeiliBridge
