import MeiliBridge.Base.Number
import MeiliBridge.Pipeline.PauseLifted

/-!
# The hysteresis of the backpressure manager

A sweep decides on the sizes and flags of its snapshot, and writes the flags back one by one, while
sizes are updated and tables are registered. Neither of these touches a flag, and a table is once in
a snapshot, so a flag that is written is always the opposite of the one that was there. The events
of a table therefore alternate, a pause first, and the flag tells which was the last (`hysteresis`).

`observed` is the machine with the history of what the monitor has sent.
-/

set_option autoImplicit false

namespace MeiliBridge

open Trans

/-! ## Alternating lists -/

/-- The list goes `first`, `second`, `first` and so on. -/
def Alternating {α : Type} (first second : α) (xs : List α) : Prop :=
  ∀ i x, xs[i]? = some x → x = if i % 2 = 0 then first else second

section Alternating

variable {α : Type} {first second x : α} {xs ys : List α}

theorem Alternating.nil : Alternating first second [] := by
  intro i x h
  cases h

theorem Alternating.left (h : Alternating first second (xs ++ ys)) :
    Alternating first second xs := by
  intro i x hx
  refine h i x ?_
  rw [List.getElem?_append_left (List.getElem?_eq_some_iff.mp hx).1]
  exact hx

theorem Alternating.concat (h : Alternating first second xs)
    (hx : x = if xs.length % 2 = 0 then first else second) :
    Alternating first second (xs ++ [x]) := by
  intro i y hy
  rcases Nat.lt_trichotomy i xs.length with hlt | rfl | hgt
  · rw [List.getElem?_append_left hlt] at hy
    exact h i y hy
  · rw [List.getElem?_concat_length] at hy
    exact (Option.some.inj hy).symm.trans hx
  · have hlength : (xs ++ [x]).length ≤ i := by
      rw [List.length_append, List.length_singleton]
      exact hgt
    rw [List.getElem?_eq_none hlength] at hy
    cases hy

/-- The last element tells how many there are. -/
theorem Alternating.getLast?_eq (h : Alternating first second xs) (hne : first ≠ second) :
    xs.getLast? = some first ↔ xs.length % 2 = 1 := by
  rw [List.getLast?_eq_getElem?]
  constructor
  · intro hlast
    have hpos : 0 < xs.length := by
      have := (List.getElem?_eq_some_iff.mp hlast).1
      omega
    have heq := h _ _ hlast
    split at heq
    · omega
    · exact absurd heq hne
  · intro hodd
    have hlt : xs.length - 1 < xs.length := by omega
    have hlast := List.getElem?_eq_getElem hlt
    rw [hlast, h _ _ hlast, if_pos (by omega)]

end Alternating

/-! ## The watermarks -/

/-- The manager's configuration. A watermark is a double other than NaN, by its value. -/
structure WatermarkConfig where
  highWatermark : WithBot (WithTop ℚ)
  lowWatermark : WithBot (WithTop ℚ)
  channelCapacity : Nat
  capacity_pos : 0 < channelCapacity
  low_lt_high : lowWatermark < highWatermark

namespace WatermarkConfig

/-- `(current_size as f64 / channel_capacity as f64) * 100.0`, for sizes of at most 64 bits -/
def usagePercent (config : WatermarkConfig) (size : Nat) : WithBot (WithTop ℚ) :=
  let usage := do
    let share ← F64.ofRat? ((F64.ofInt size).val / (F64.ofInt config.channelCapacity).val)
    F64.ofRat? (share.val * 100)
  match usage with
  | some percent => ((percent.val : WithTop ℚ) : WithBot (WithTop ℚ))
  | none => ((⊤ : WithTop ℚ) : WithBot (WithTop ℚ))

/-- The comparisons of a sweep. -/
def checks (config : WatermarkConfig) : BackpressureConfig where
  aboveHigh size := decide (config.highWatermark ≤ config.usagePercent size)
  belowLow size := decide (config.usagePercent size ≤ config.lowWatermark)

end WatermarkConfig

namespace Backpressure

/-! ## The events of a table -/

/-- The events about a table, in order. -/
def eventsOf (table : String) (events : List BackpressureEvent) : List BackpressureEvent :=
  events.filter fun event => event = .pauseSource table ∨ event = .resumeSource table

/-- The manager with the history of what its monitor has sent. -/
structure Observed where
  system : State
  emitted : List BackpressureEvent

/-- What the monitor sends in a step. -/
def emission (s : State) : Label → List BackpressureEvent
  | .emit =>
    match s.monitor with
    | .sending (event :: _) => [event]
    | _ => []
  | _ => []

def observed (config : BackpressureConfig) (sources : List String) : Machine Observed Label where
  init o := Starts o.system ∧ o.emitted = []
  step o l o' :=
    Step config sources o.system l o'.system ∧ o'.emitted = o.emitted ++ emission o.system l

variable {config : BackpressureConfig} {sources : List String} {s s' : State} {l : Label}
  {table : String} {metrics : Dict ChannelMetrics} {entry : String × ChannelMetrics}

theorem eventsOf_append (table : String) (events more : List BackpressureEvent) :
    eventsOf table (events ++ more) = eventsOf table events ++ eventsOf table more :=
  List.filter_append ..

/-- What a decision does to its own table. -/
theorem decision_cases (config : BackpressureConfig) (entry : String × ChannelMetrics) :
    decision config entry = some (.pauseSource entry.1) ∧ entry.2.isThrottled = false ∨
      decision config entry = some (.resumeSource entry.1) ∧ entry.2.isThrottled = true ∨
      decision config entry = none := by
  unfold decision
  cases hthrottled : entry.2.isThrottled with
  | false =>
    cases config.aboveHigh entry.2.currentSize with
    | true => exact .inl ⟨rfl, rfl⟩
    | false => exact .inr (.inr rfl)
  | true =>
    cases config.belowLow entry.2.currentSize with
    | true => exact .inr (.inl ⟨rfl, rfl⟩)
    | false => exact .inr (.inr rfl)

/-- A decision says nothing about another table. -/
theorem eventsOf_decision_other (h : table ≠ entry.1) :
    eventsOf table (decision config entry).toList = [] := by
  rcases decision_cases config entry with ⟨heq, -⟩ | ⟨heq, -⟩ | heq
  · simp [heq, eventsOf, Ne.symm h]
  · simp [heq, eventsOf, Ne.symm h]
  · simp [heq, eventsOf]

theorem sweepEvents_concat (checked : List (String × ChannelMetrics)) :
    sweepEvents config (checked ++ [entry]) =
      sweepEvents config checked ++ (decision config entry).toList := by
  rw [sweepEvents, List.filterMap_append]
  cases h : decision config entry with
  | none => simp [sweepEvents, h]
  | some event => simp [sweepEvents, h]

/-! ## Tables stay registered -/

theorem isSome_insert {other : String} {metric : ChannelMetrics}
    (h : (metrics.lookup other).isSome) : ((metrics.insert table metric).lookup other).isSome := by
  by_cases heq : other = table
  · subst heq
    simp
  · rwa [AList.lookup_insert_ne heq]

theorem isSome_updateChannelSize {other : String} {size : Nat} (h : (metrics.lookup other).isSome) :
    ((updateChannelSize metrics table size).lookup other).isSome := by
  unfold updateChannelSize
  split
  · exact isSome_insert h
  · exact isSome_insert h

theorem isSome_registerTable {other : String} (h : (metrics.lookup other).isSome) :
    ((registerTable metrics table).lookup other).isSome := by
  unfold registerTable
  split
  · exact h
  · exact isSome_insert h

theorem isSome_setThrottled {other : String} {flag : Bool} (h : (metrics.lookup other).isSome) :
    ((setThrottled metrics table flag).lookup other).isSome := by
  unfold setThrottled
  split
  · exact isSome_insert h
  · exact h

/-! ## The invariant -/

/-- A snapshot has a table once, and the flags it has still to check are those of the map. -/
structure Fits (metrics : Dict ChannelMetrics) (checked rest : List (String × ChannelMetrics)) :
    Prop where
  nodup : ((checked ++ rest).map Prod.fst).Nodup
  known : ∀ entry ∈ rest, (metrics.lookup entry.1).isSome
  flag : ∀ entry ∈ rest, isThrottled metrics entry.1 = entry.2.isThrottled

/-- What the monitor has decided so far. -/
def decided (config : BackpressureConfig) (s : State) (emitted : List BackpressureEvent) :
    List BackpressureEvent :=
  emitted ++ s.monitor.toSend config

/-- The decisions about a table alternate, and its flag tells which was the last. -/
structure Coherent (config : BackpressureConfig) (s : State) (emitted : List BackpressureEvent) :
    Prop where
  alternate : ∀ table, Alternating (.pauseSource table) (.resumeSource table)
    (eventsOf table (decided config s emitted))
  throttled : ∀ table, isThrottled s.metrics table = true ↔
    (eventsOf table (decided config s emitted)).length % 2 = 1
  fits : ∀ checked rest, s.monitor = .sweeping checked rest → Fits s.metrics checked rest

variable {emitted emitted' : List BackpressureEvent}

/-- A step that decides nothing and touches no flag. -/
theorem Coherent.same (h : Coherent config s emitted)
    (hdecided : decided config s' emitted' = decided config s emitted)
    (hflags : ∀ table, isThrottled s'.metrics table = isThrottled s.metrics table)
    (hfits : ∀ checked rest, s'.monitor = .sweeping checked rest → Fits s'.metrics checked rest) :
    Coherent config s' emitted' where
  alternate table := by
    rw [hdecided]
    exact h.alternate table
  throttled table := by
    rw [hdecided, hflags]
    exact h.throttled table
  fits := hfits

/-- Sizes and registrations do not concern a sweep. -/
theorem Coherent.resized (h : Coherent config s emitted) {metrics' : Dict ChannelMetrics}
    (hflags : ∀ table, isThrottled metrics' table = isThrottled s.metrics table)
    (hknown : ∀ table, (s.metrics.lookup table).isSome → (metrics'.lookup table).isSome) :
    Coherent config { s with metrics := metrics' } emitted := by
  refine h.same rfl hflags fun checked rest hmonitor => ?_
  have hfits := h.fits checked rest hmonitor
  refine ⟨hfits.nodup, fun entry hentry => hknown _ (hfits.known entry hentry), ?_⟩
  intro entry hentry
  exact (hflags entry.1).trans (hfits.flag entry hentry)

theorem fits_snapshot {order : List (String × ChannelMetrics)} (horder : Snapshot metrics order) :
    Fits metrics [] order := by
  have hlookup : ∀ entry ∈ order, metrics.lookup entry.1 = some entry.2 := by
    intro entry hentry
    obtain ⟨⟨table, metric⟩, hmem, rfl⟩ := List.mem_map.mp (horder.mem_iff.mp hentry)
    exact AList.mem_lookup_iff.mpr hmem
  refine ⟨?_, fun entry hentry => ?_, fun entry hentry => ?_⟩
  · have hkeys := horder.map Prod.fst
    rw [List.map_map] at hkeys
    exact hkeys.nodup_iff.mpr metrics.nodupKeys
  · rw [hlookup entry hentry]
    rfl
  · rw [isThrottled, hlookup entry hentry]
    rfl

theorem known_applyDecision {event : Option BackpressureEvent} {other : String}
    (h : (metrics.lookup other).isSome) : ((applyDecision metrics event).lookup other).isSome := by
  cases event with
  | none => exact h
  | some event =>
    cases event with
    | pauseSource table => exact isSome_setThrottled h
    | resumeSource table => exact isSome_setThrottled h
    | pauseAll => exact h
    | resumeAll => exact h

/-- A decision writes its own table's flag. -/
theorem isThrottled_decision_other {other : String} (h : other ≠ entry.1) :
    isThrottled (applyDecision metrics (decision config entry)) other =
      isThrottled metrics other := by
  rcases decision_cases config entry with ⟨heq, -⟩ | ⟨heq, -⟩ | heq
  · rw [heq, applyDecision, isThrottled_setThrottled, if_neg fun hsame => h hsame.1]
  · rw [heq, applyDecision, isThrottled_setThrottled, if_neg fun hsame => h hsame.1]
  · rw [heq]
    rfl

/-- The table's own decision is the opposite of its last one, and its flag follows. -/
theorem alternate_decision (config : BackpressureConfig) {events : List BackpressureEvent}
    (halternate : Alternating (.pauseSource entry.1) (.resumeSource entry.1) events)
    (hthrottled : isThrottled metrics entry.1 = true ↔ events.length % 2 = 1)
    (hknown : (metrics.lookup entry.1).isSome)
    (hflag : isThrottled metrics entry.1 = entry.2.isThrottled) :
    Alternating (.pauseSource entry.1) (.resumeSource entry.1)
        (events ++ eventsOf entry.1 (decision config entry).toList) ∧
      (isThrottled (applyDecision metrics (decision config entry)) entry.1 = true ↔
        (events ++ eventsOf entry.1 (decision config entry).toList).length % 2 = 1) := by
  rw [hflag] at hthrottled
  rcases decision_cases config entry with ⟨heq, hfalse⟩ | ⟨heq, htrue⟩ | heq
  -- the decision speaks of its own table only, where the parity tells whether it is paused
  · have heven : events.length % 2 = 0 := by
      have hnot : ¬ events.length % 2 = 1 := fun hodd => by simp [hthrottled.mpr hodd] at hfalse
      omega
    have hown : eventsOf entry.1 (decision config entry).toList = [.pauseSource entry.1] := by
      simp [heq, eventsOf]
    rw [hown, heq, applyDecision, isThrottled_setThrottled, if_pos ⟨rfl, hknown⟩]
    refine ⟨halternate.concat (if_pos heven).symm, iff_of_true rfl ?_⟩
    rw [List.length_append, List.length_singleton]
    omega
  · have hodd := hthrottled.mp htrue
    have hown : eventsOf entry.1 (decision config entry).toList = [.resumeSource entry.1] := by
      simp [heq, eventsOf]
    rw [hown, heq, applyDecision, isThrottled_setThrottled, if_pos ⟨rfl, hknown⟩]
    refine ⟨halternate.concat (if_neg (by omega)).symm, iff_of_false (by simp) ?_⟩
    rw [List.length_append, List.length_singleton]
    omega
  · have hown : eventsOf entry.1 (decision config entry).toList = [] := by
      simp [heq, eventsOf]
    rw [hown, heq, List.append_nil]
    refine ⟨halternate, ?_⟩
    show isThrottled metrics entry.1 = true ↔ _
    rw [hflag]
    exact hthrottled

/-- The check of an entry decides a change of its flag, and writes it. -/
theorem Coherent.check (h : Coherent config s emitted)
    {checked rest : List (String × ChannelMetrics)}
    (hmonitor : s.monitor = .sweeping checked (entry :: rest)) :
    Coherent config
      { s with
        monitor := .sweeping (checked ++ [entry]) rest
        metrics := applyDecision s.metrics (decision config entry) } emitted := by
  have hfits := h.fits checked (entry :: rest) hmonitor
  have hdecided (table : String) :
      eventsOf table (emitted ++ sweepEvents config (checked ++ [entry])) =
        eventsOf table (decided config s emitted) ++
          eventsOf table (decision config entry).toList := by
    rw [sweepEvents_concat, ← List.append_assoc, eventsOf_append, decided, hmonitor]
    rfl
  have hown := alternate_decision config (h.alternate entry.1) (h.throttled entry.1)
    (hfits.known entry List.mem_cons_self) (hfits.flag entry List.mem_cons_self)
  refine ⟨fun table => ?_, fun table => ?_, fun checked' rest' heq => ?_⟩
  · show Alternating _ _ (eventsOf table (emitted ++ sweepEvents config (checked ++ [entry])))
    rw [hdecided]
    by_cases htable : table = entry.1
    · rw [htable]
      exact hown.1
    · rw [eventsOf_decision_other htable, List.append_nil]
      exact h.alternate table
  · show _ ↔ (eventsOf table (emitted ++ sweepEvents config (checked ++ [entry]))).length % 2 = 1
    rw [hdecided]
    by_cases htable : table = entry.1
    · rw [htable]
      exact hown.2
    · rw [eventsOf_decision_other htable, List.append_nil, isThrottled_decision_other htable]
      exact h.throttled table
  · obtain ⟨rfl, rfl⟩ := Monitor.sweeping.inj heq
    have hnodup := hfits.nodup
    rw [List.append_cons] at hnodup
    refine ⟨hnodup, fun other hother => ?_, fun other hother => ?_⟩
    · exact known_applyDecision (hfits.known other (List.mem_cons_of_mem _ hother))
    -- the snapshot has a table once, so the later entries are about other tables
    · have hne : other.1 ≠ entry.1 := by
        intro hsame
        rw [List.map_append, List.map_append] at hnodup
        refine List.disjoint_of_nodup_append hnodup ?_ (List.mem_map_of_mem hother)
        rw [hsame]
        exact List.mem_append_right _ List.mem_cons_self
      rw [isThrottled_decision_other hne]
      exact hfits.flag other (List.mem_cons_of_mem _ hother)

/-- Sending moves a decision from the monitor to the history. -/
theorem decided_emit {event : BackpressureEvent} {rest : List BackpressureEvent} {events}
    (hmonitor : s.monitor = .sending (event :: rest)) :
    decided config { s with monitor := .sending rest, events := events } (emitted ++ [event]) =
      decided config s emitted := by
  show emitted ++ [event] ++ rest = emitted ++ s.monitor.toSend config
  rw [hmonitor, List.append_assoc]
  rfl

theorem Coherent.step (h : Coherent config s emitted) (hs : Step config sources s l s') :
    Coherent config s' (emitted ++ emission s l) := by
  cases hs with
  | @emit event rest hmonitor hroom =>
    have hemission : emission s .emit = [event] := by
      rw [emission, hmonitor]
    rw [hemission]
    exact h.same (decided_emit hmonitor) (fun _ => rfl) fun _ _ heq => by cases heq
  -- only `emit` adds to what has been sent
  | check hmonitor =>
    show Coherent config _ (emitted ++ [])
    rw [List.append_nil]
    exact h.check hmonitor
  | updateChannelSize =>
    show Coherent config _ (emitted ++ [])
    rw [List.append_nil]
    exact h.resized (fun _ => isThrottled_updateChannelSize ..) fun _ => isSome_updateChannelSize
  | registerTable =>
    show Coherent config _ (emitted ++ [])
    rw [List.append_nil]
    exact h.resized (fun _ => isThrottled_registerTable ..) fun _ => isSome_registerTable
  | snapshot hmonitor horder =>
    show Coherent config _ (emitted ++ [])
    rw [List.append_nil]
    refine h.same ?_ (fun _ => rfl) fun checked rest heq => ?_
    · rw [decided, decided, hmonitor]
      rfl
    · obtain ⟨rfl, rfl⟩ := Monitor.sweeping.inj heq
      exact fits_snapshot horder
  | endSweep hmonitor =>
    show Coherent config _ (emitted ++ [])
    rw [List.append_nil]
    refine h.same ?_ (fun _ => rfl) fun _ _ heq => by cases heq
    rw [decided, decided, hmonitor]
    rfl
  | endSending hmonitor =>
    show Coherent config _ (emitted ++ [])
    rw [List.append_nil]
    refine h.same ?_ (fun _ => rfl) fun _ _ heq => by cases heq
    rw [decided, decided, hmonitor]
    rfl
  | cdc | receive | tell | endHandling =>
    show Coherent config _ (emitted ++ [])
    rw [List.append_nil]
    exact h.same rfl (fun _ => rfl) h.fits

theorem Coherent.init (h : Starts s) : Coherent config s [] := by
  have hnone (table : String) : eventsOf table (decided config s []) = [] := by
    rw [decided, h.monitor]
    rfl
  refine ⟨fun table => ?_, fun table => ?_, fun checked rest heq => ?_⟩
  · rw [hnone]
    exact .nil
  · rw [hnone, isThrottled_iff]
    refine iff_of_false ?_ (by simp)
    rintro ⟨metric, hmetric, hflag⟩
    rw [h.metrics table metric hmetric] at hflag
    cases hflag
  · cases h.monitor.symm.trans heq

theorem observed_coherent {o : Observed} (h : (observed config sources).Reachable o) :
    Coherent config o.system o.emitted := by
  refine h.invariant (I := fun o => Coherent config o.system o.emitted) ?_ ?_
  · intro o ho
    rw [ho.2]
    exact Coherent.init ho.1
  · intro o l o' hcoherent hs
    rw [hs.2]
    exact hcoherent.step hs.1

/-! ## The law -/

/-- The law of a state, with the history of what the monitor has sent. -/
structure Hysteresis (config : WatermarkConfig) (o : Observed) : Prop where
  /-- a table's events alternate, a pause first -/
  alternate : ∀ table, Alternating (.pauseSource table) (.resumeSource table)
    (eventsOf table o.emitted)
  /-- between sweeps a table is throttled if its last event is a pause -/
  throttled : o.system.monitor = .waiting → ∀ table,
    isThrottled o.system.metrics table = true ↔
      (eventsOf table o.emitted).getLast? = some (.pauseSource table)
  /-- a sweep sends nothing about a table that its snapshot has between the watermarks -/
  between : ∀ checked rest, o.system.monitor = .sweeping checked rest →
    ∀ entry ∈ checked ++ rest,
      config.lowWatermark < config.usagePercent entry.2.currentSize →
      config.usagePercent entry.2.currentSize < config.highWatermark →
      eventsOf entry.1 (sweepEvents config.checks (checked ++ rest)) = []

/-- Of a table once in the snapshot and between the watermarks nothing is decided. -/
theorem sweepEvents_between {watermarks : WatermarkConfig}
    {order : List (String × ChannelMetrics)} (hnodup : (order.map Prod.fst).Nodup)
    (hentry : entry ∈ order)
    (hlow : watermarks.lowWatermark < watermarks.usagePercent entry.2.currentSize)
    (hhigh : watermarks.usagePercent entry.2.currentSize < watermarks.highWatermark) :
    eventsOf entry.1 (sweepEvents watermarks.checks order) = [] := by
  have hnone : decision watermarks.checks entry = none := by
    simp [decision, WatermarkConfig.checks, not_le.mpr hlow, not_le.mpr hhigh]
  rw [eventsOf, List.filter_eq_nil_iff]
  intro event hevent habout
  obtain ⟨other, hother, hdecision⟩ := List.mem_filterMap.mp hevent
  have hne : other ≠ entry := by
    rintro rfl
    cases hnone.symm.trans hdecision
  have htable : entry.1 ≠ other.1 := by
    intro heq
    exact hne (List.inj_on_of_nodup_map hnodup hother hentry heq.symm)
  have hnothing : eventsOf entry.1 (decision watermarks.checks other).toList = [] :=
    eventsOf_decision_other htable
  rw [hdecision] at hnothing
  exact List.filter_eq_nil_iff.mp hnothing event List.mem_cons_self habout

/-- **The hysteresis of the backpressure manager**, in every run. -/
theorem hysteresis (config : WatermarkConfig) (sources : List String) (o : Observed)
    (h : (observed config.checks sources).Reachable o) : Hysteresis config o := by
  have hcoherent := observed_coherent h
  refine ⟨fun table => ?_, fun hwaiting table => ?_, fun checked rest hmonitor entry hentry => ?_⟩
  · have halternate := hcoherent.alternate table
    rw [decided, eventsOf_append] at halternate
    exact halternate.left
  · have halternate := hcoherent.alternate table
    have hthrottled := hcoherent.throttled table
    have hdecided : decided config.checks o.system o.emitted = o.emitted := by
      rw [decided, hwaiting]
      exact List.append_nil _
    rw [hdecided] at halternate hthrottled
    rw [hthrottled, halternate.getLast?_eq (by simp)]
  · exact sweepEvents_between (hcoherent.fits checked rest hmonitor).nodup hentry

/-! ### A pause of one table -/

/-- The watermarks of `PipelineOrchestrator::start`: 80 and 60 percent of 1000. -/
def startWatermarks : WatermarkConfig where
  highWatermark := ((80 : WithTop ℚ) : WithBot (WithTop ℚ))
  lowWatermark := ((60 : WithTop ℚ) : WithBot (WithTop ℚ))
  channelCapacity := 1000
  capacity_pos := by decide
  low_lt_high := by decide +kernel

theorem decision_books : decision startWatermarks.checks ("books", ⟨900, false⟩) =
    some (.pauseSource "books") := by
  decide +kernel

theorem sweepEvents_books : sweepEvents startWatermarks.checks ([] ++ [("books", ⟨900, false⟩)]) =
    [.pauseSource "books"] :=
  List.filterMap_cons_some decision_books

/-- A manager before anything is registered. -/
def fresh : State where
  coordinators _ := CdcCoordinator.registered ["books"]
  metrics := ∅
  monitor := .waiting
  events := []
  handler := .waiting
  fullPauses := ∅

theorem fresh_starts : Starts fresh where
  coordinators _ := CdcCoordinator.registered_starts _
  metrics _ _ h := by cases h
  monitor := rfl
  events := rfl
  handler := rfl
  fullPauses := rfl

theorem observed_step {o : Observed} (h : (observed config sources).Reachable o)
    (hs : Step config sources o.system l s') :
    (observed config sources).Reachable ⟨s', o.emitted ++ emission o.system l⟩ :=
  h.step ⟨hs, rfl⟩

/-- The manager when a sweep has paused `books`. -/
def swept : State :=
  { fresh with
    metrics := (∅ : Dict ChannelMetrics).insert "books" ⟨900, true⟩
    monitor := .sending [.pauseSource "books"] }

/-- The channel of `books` fills, and a sweep pauses it. -/
theorem hysteresis_books : ∃ o, Hysteresis startWatermarks o ∧
    o.emitted = [.pauseSource "books"] ∧ isThrottled o.system.metrics "books" = true := by
  have h₀ : (observed startWatermarks.checks []).Reachable ⟨fresh, []⟩ := .init ⟨fresh_starts, rfl⟩
  have h₁ := observed_step (l := Label.updateChannelSize "books" 900) h₀ .updateChannelSize
  have h₂ := observed_step (l := Label.snapshot [("books", ⟨900, false⟩)]) h₁
    (.snapshot rfl (.refl _))
  have h₃ := observed_step (l := Label.check) h₂ (.check rfl)
  have h₄ : (observed startWatermarks.checks []).Reachable ⟨swept, []⟩ := by
    have h := observed_step (l := Label.endSweep) h₃ (.endSweep rfl)
    rw [sweepEvents_books, decision_books] at h
    exact h
  have h₅ := observed_step (l := Label.emit) h₄ (.emit rfl (by decide))
  have h₆ := observed_step (l := Label.endSending) h₅ (.endSending rfl)
  exact ⟨_, hysteresis startWatermarks [] _ h₆, rfl, rfl⟩

end Backpressure

end MeiliBridge
