import MeiliBridge.Pipeline.Backpressure

/-!
# Lifting a backpressure pause

A coordinator pauses a table on its own when the table's channel is full. Only a `ResumeSource` of
the manager lifts such a pause, and the manager sends it only for a table that it regards as
throttled, which it knows from the sizes it was told and not from the coordinator.

`PausesLift` is the law: for each full-channel pause that nobody has lifted, a `ResumeSource` is on
its way, or the manager has the table as throttled and a sweep will send one as soon as the size is
low. `PausesThrottled` is the condition under which the coordinator pauses, and `pauses_lift` the
law for every run that meets it.
-/

set_option autoImplicit false

namespace MeiliBridge

open Trans

namespace Backpressure

/-! ## The law -/

/-- What the monitor has decided to send and has not sent yet. -/
def Monitor.toSend (config : BackpressureConfig) : Monitor → List BackpressureEvent
  | .waiting => []
  | .sweeping checked _ => sweepEvents config checked
  | .sending events => events

/-- A `ResumeSource` of the table is on its way to the source's coordinator. -/
def State.Resuming (config : BackpressureConfig) (s : State) (source table : String) : Prop :=
  .resumeSource table ∈ s.monitor.toSend config ∨ .resumeSource table ∈ s.events ∨
    ∃ sources, s.handler = .handling (.resumeSource table) sources ∧ source ∈ sources

/-- The manager has the table as throttled, and every sweep resumes it once its size is low. -/
def State.Releases (config : BackpressureConfig) (s : State) (table : String) : Prop :=
  isThrottled s.metrics table = true ∧
    ∀ metric, s.metrics.lookup table = some metric → config.belowLow metric.currentSize = true →
      ∀ order, Snapshot s.metrics order → .resumeSource table ∈ sweepEvents config order

/-- Every pause for a full channel that nobody has lifted can be lifted. -/
def State.PausesLift (config : BackpressureConfig) (s : State) : Prop :=
  ∀ source table, (source, table) ∈ s.fullPauses →
    s.Resuming config source table ∨ s.Releases config table

/-- The pause of a table would be lifted. -/
def State.Lifted (config : BackpressureConfig) (s : State) (source table : String) : Prop :=
  s.Resuming config source table ∨ isThrottled s.metrics table = true

/-- A coordinator pauses a table for its full channel only if the manager has the table as
throttled already, or its `ResumeSource` is on the way. -/
def PausesThrottled (config : BackpressureConfig) (s : State) : Label → Prop
  | .cdc source .pauseFull => ∀ m name rest,
      (s.coordinators source).loop = .full m name rest → s.Lifted config source name
  | _ => True

/-! ## The invariant -/

structure Inv (config : BackpressureConfig) (sources : List String) (s : State) : Prop where
  source : ∀ source table, (source, table) ∈ s.fullPauses → source ∈ sources
  lifted : ∀ source table, (source, table) ∈ s.fullPauses → s.Lifted config source table

variable {config : BackpressureConfig} {sources : List String} {s s' : State}

theorem Inv.pausesLift (h : Inv config sources s) : s.PausesLift config := by
  intro source table hmem
  rcases h.lifted source table hmem with hresuming | hthrottled
  · exact .inl hresuming
  · refine .inr ⟨hthrottled, ?_⟩
    intro metric hmetric hlow order horder
    obtain ⟨metric', hmetric', hflag⟩ := isThrottled_iff.mp hthrottled
    rw [hmetric] at hmetric'
    cases hmetric'
    exact resumeSource_mem_sweepEvents hmetric hflag hlow horder

/-- A step that adds no pause and leaves every pause lifted as it was. -/
theorem Inv.keep (hi : Inv config sources s) (hpauses : s'.fullPauses = s.fullPauses)
    (hlifted : ∀ source table, source ∈ sources → s.Lifted config source table →
      s'.Lifted config source table) : Inv config sources s' where
  source source table hmem := by
    rw [hpauses] at hmem
    exact hi.source source table hmem
  lifted source table hmem := by
    rw [hpauses] at hmem
    exact hlifted source table (hi.source source table hmem) (hi.lifted source table hmem)

/-- A step that changes the map of the manager and keeps its flags. -/
theorem Inv.metrics (hi : Inv config sources s) {metrics : Dict ChannelMetrics}
    (h : ∀ table, isThrottled metrics table = isThrottled s.metrics table) :
    Inv config sources { s with metrics } := by
  refine hi.keep rfl ?_
  intro source table _ hlifted
  rcases hlifted with hresuming | hthrottled
  · exact .inl hresuming
  · exact .inr ((h table).trans hthrottled)

/-- A step of the monitor that leaves the map alone. -/
theorem Inv.monitor (hi : Inv config sources s) (monitor : Monitor)
    (events : List BackpressureEvent)
    (h : ∀ event, event ∈ s.monitor.toSend config ∨ event ∈ s.events →
      event ∈ monitor.toSend config ∨ event ∈ events) :
    Inv config sources { s with monitor, events } := by
  refine hi.keep rfl ?_
  intro source table _ hlifted
  rcases hlifted with (hsend | hevents | hhandler) | hthrottled
  · rcases h _ (.inl hsend) with hsend | hevents
    · exact .inl (.inl hsend)
    · exact .inl (.inr (.inl hevents))
  · rcases h _ (.inr hevents) with hsend | hevents
    · exact .inl (.inl hsend)
    · exact .inl (.inr (.inl hevents))
  · exact .inl (.inr (.inr hhandler))
  · exact .inr hthrottled

/-- A sweep takes the flag from a table only when it decides to resume it. -/
theorem Inv.check (hi : Inv config sources s) {checked rest : List (String × ChannelMetrics)}
    {entry : String × ChannelMetrics} (hmonitor : s.monitor = .sweeping checked (entry :: rest)) :
    Inv config sources { s with
      monitor := .sweeping (checked ++ [entry]) rest
      metrics := applyDecision s.metrics (decision config entry) } := by
  refine hi.keep rfl ?_
  intro source table _ hlifted
  have hsend : sweepEvents config (checked ++ [entry]) =
      sweepEvents config checked ++ (decision config entry).toList := by
    rw [sweepEvents, List.filterMap_append, ← sweepEvents]
    cases hdecision : decision config entry <;> simp [hdecision]
  rcases hlifted with (hresume | hqueued) | hthrottled
  · rw [hmonitor] at hresume
    refine .inl (.inl ?_)
    show BackpressureEvent.resumeSource table ∈ sweepEvents config (checked ++ [entry])
    rw [hsend]
    exact List.mem_append_left _ hresume
  · exact .inl (.inr hqueued)
  · by_cases hdecision : decision config entry = some (.resumeSource table)
    · refine .inl (.inl ?_)
      show BackpressureEvent.resumeSource table ∈ sweepEvents config (checked ++ [entry])
      rw [hsend, hdecision]
      exact List.mem_append_right _ (List.mem_singleton_self _)
    · exact .inr (isThrottled_applyDecision hthrottled hdecision)

/-- The pauses after a step of a coordinator: the old ones, or the one of a full channel. -/
theorem mem_notePause {c : CdcCoordinator.State} {source : String} {l : CdcCoordinator.Label}
    {pauses : Finset (String × String)} {p : String × String}
    (h : p ∈ notePause c source l pauses) :
    p ∈ pauses ∧ (∀ name, l = .resumeTable name → p ≠ (source, name)) ∨
      ∃ m name rest, l = .pauseFull ∧ c.loop = .full m name rest ∧ p = (source, name) := by
  match l with
  | .pauseFull =>
    cases hloop : c.loop with
    | full m name rest =>
      simp only [notePause, hloop, Finset.mem_insert] at h
      rcases h with rfl | h
      · exact .inr ⟨m, name, rest, rfl, rfl, rfl⟩
      · exact .inl ⟨h, nofun⟩
    | _ =>
      simp only [notePause, hloop] at h
      exact .inl ⟨h, nofun⟩
  | .resumeTable name =>
    rw [notePause, Finset.mem_erase] at h
    refine .inl ⟨h.2, ?_⟩
    intro other hother
    cases hother
    exact h.1
  | .arrive _ | .start _ | .receive | .checkPaused | .checkTable | .trySend | .blockedSend
  | .finish | .shutdown | .pauseAll | .resumeAll | .pauseTable _ | .recv _ | .close _ =>
    exact .inl ⟨h, nofun⟩

/-- A step of a coordinator that meets the condition. -/
theorem Inv.cdc (hi : Inv config sources s) {source : String} {l : CdcCoordinator.Label}
    {c : CdcCoordinator.State} (hsource : source ∈ sources)
    (hok : PausesThrottled config s (.cdc source l)) : Inv config sources (s.cdc source l c) where
  source other table hmem := by
    rcases mem_notePause hmem with ⟨hold, -⟩ | ⟨m, name, rest, -, -, heq⟩
    · exact hi.source other table hold
    · cases heq
      exact hsource
  lifted other table hmem := by
    rcases mem_notePause hmem with ⟨hold, -⟩ | ⟨m, name, rest, rfl, hloop, heq⟩
    · exact hi.lifted other table hold
    · cases heq
      exact hok m _ rest hloop

/-- The handler tells an event to a coordinator. -/
theorem Inv.tell (hi : Inv config sources s) {event : BackpressureEvent} {source : String}
    {rest : List String} {c : CdcCoordinator.State}
    (hhandler : s.handler = .handling event (source :: rest)) :
    Inv config sources
      { s.cdc source (eventLabel event) c with handler := .handling event rest } := by
  have hevent : eventLabel event ≠ .pauseFull := by cases event <;> nofun
  have hold : ∀ other table, (other, table) ∈ (s.cdc source (eventLabel event) c).fullPauses →
      (other, table) ∈ s.fullPauses ∧ (event = .resumeSource table → other ≠ source) := by
    intro other table hmem
    rcases mem_notePause hmem with ⟨hold, hne⟩ | ⟨m, name, rest, hpause, -⟩
    · refine ⟨hold, ?_⟩
      intro hresume hother
      exact hne table (by rw [hresume]; rfl) (by rw [hother])
    · exact absurd hpause hevent
  refine ⟨?_, ?_⟩
  · intro other table hmem
    exact hi.source other table (hold other table hmem).1
  · intro other table hmem
    obtain ⟨hmem, hne⟩ := hold other table hmem
    rcases hi.lifted other table hmem with (hsend | hevents | ⟨told, htold, hother⟩) | hthrottled
    · exact .inl (.inl hsend)
    · exact .inl (.inr (.inl hevents))
    · rw [hhandler] at htold
      cases htold
      rcases List.mem_cons.mp hother with heq | hrest
      · exact absurd heq (hne rfl)
      · exact .inl (.inr (.inr ⟨rest, rfl, hrest⟩))
    · exact .inr hthrottled

theorem Inv.step {l : Label} (hi : Inv config sources s) (hok : PausesThrottled config s l)
    (hs : Step config sources s l s') : Inv config sources s' := by
  cases hs with
  | cdc hsource h => exact hi.cdc hsource hok
  | updateChannelSize => exact hi.metrics fun table => isThrottled_updateChannelSize _ _ table _
  | registerTable => exact hi.metrics fun table => isThrottled_registerTable _ _ table
  -- the sweep's own steps move an event along: from the sweep to the channel, to the handler
  | snapshot hmonitor horder =>
    refine hi.monitor _ s.events ?_
    intro event h
    rw [hmonitor] at h
    exact h
  | check hmonitor => exact hi.check hmonitor
  | endSweep hmonitor =>
    refine hi.monitor _ s.events ?_
    intro event h
    rw [hmonitor] at h
    exact h
  | @emit event rest hmonitor hroom =>
    refine hi.monitor _ _ ?_
    intro other h
    rw [hmonitor] at h
    rcases h with hsend | hevents
    · rcases List.mem_cons.mp hsend with rfl | hrest
      · exact .inr (List.mem_append_right _ (List.mem_singleton_self _))
      · exact .inl hrest
    · exact .inr (List.mem_append_left _ hevents)
  | endSending hmonitor =>
    refine hi.monitor _ s.events ?_
    intro event h
    rw [hmonitor] at h
    exact h
  -- the handler has all the sources before it, whatever their order
  | @receive event rest order hhandler hevents horder =>
    refine hi.keep rfl ?_
    intro source table hsource hlifted
    rcases hlifted with (hsend | hqueued | ⟨told, htold, -⟩) | hthrottled
    · exact .inl (.inl hsend)
    · rw [hevents] at hqueued
      rcases List.mem_cons.mp hqueued with rfl | hrest
      · exact .inl (.inr (.inr ⟨order, rfl, horder.mem_iff.mpr hsource⟩))
      · exact .inl (.inr (.inl hrest))
    · rw [hhandler] at htold
      cases htold
    · exact .inr hthrottled
  | tell hhandler h => exact hi.tell hhandler
  | endHandling hhandler =>
    refine hi.keep rfl ?_
    intro source table _ hlifted
    rcases hlifted with (hsend | hqueued | ⟨told, htold, hnone⟩) | hthrottled
    · exact .inl (.inl hsend)
    · exact .inl (.inr (.inl hqueued))
    · rw [hhandler] at htold
      cases htold
      cases hnone
    · exact .inr hthrottled

theorem reachable_inv
    (h : ((machine config sources).restrict (PausesThrottled config)).Reachable s) :
    Inv config sources s := by
  refine h.invariant (I := Inv config sources) ?_ ?_
  · intro s hs
    constructor <;> simp [hs.fullPauses]
  · intro s l s' hi hs
    exact hi.step hs.1 hs.2

/-- **A backpressure pause can be lifted.** In every run in which the coordinators pause for a full
channel only what the manager has as throttled, all these pauses can be lifted in every state. -/
theorem pauses_lift (config : BackpressureConfig) (sources : List String) (s : State)
    (h : ((machine config sources).restrict (PausesThrottled config)).Reachable s) :
    s.PausesLift config :=
  (reachable_inv h).pausesLift

/-! ### A full channel -/

/-- The watermarks of `PipelineOrchestrator::start`: 80 and 60 percent of 1000. -/
def startConfig : BackpressureConfig := ⟨fun size => 800 ≤ size, fun size => size ≤ 600⟩

/-- The runs with one source that meet the condition. -/
abbrev runs : Machine State Label :=
  (machine startConfig ["primary"]).restrict (PausesThrottled startConfig)

/-- The label neither pauses for a full channel nor resumes a table. -/
def Quiet (_ : CdcCoordinator.State) (l : CdcCoordinator.Label) : Prop :=
  l ≠ .pauseFull ∧ ∀ table, l ≠ .resumeTable table

theorem notePause_quiet {c : CdcCoordinator.State} {l : CdcCoordinator.Label} (h : Quiet c l)
    (source : String) (pauses : Finset (String × String)) :
      notePause c source l pauses = pauses := by
  cases l with
  | pauseFull => exact absurd rfl h.1
  | resumeTable table => exact absurd rfl (h.2 table)
  | _ => rfl

theorem setCoordinator_cdc (s : State) (source : String) (l : CdcCoordinator.Label)
    (c c' : CdcCoordinator.State) :
    (s.setCoordinator source c).cdc source l c' =
      { s.setCoordinator source c' with fullPauses := notePause c source l s.fullPauses } := by
  simp [State.cdc, State.setCoordinator]

/-- The coordinator of the source takes a step. -/
theorem reachable_cdc {c c' : CdcCoordinator.State} {l : CdcCoordinator.Label}
    (h : runs.Reachable (s.setCoordinator "primary" c))
    (hok : PausesThrottled startConfig (s.setCoordinator "primary" c) (.cdc "primary" l))
    (hs : CdcCoordinator.Step c l c') :
    runs.Reachable { s.setCoordinator "primary" c' with
      fullPauses := notePause c "primary" l s.fullPauses } := by
  rw [← setCoordinator_cdc]
  refine h.step (l := Label.cdc "primary" l) ⟨hok, .cdc (List.mem_singleton_self _) ?_⟩
  have hc : (s.setCoordinator "primary" c).coordinators "primary" = c := by
    simp [State.setCoordinator]
  rw [hc]
  exact hs

abbrev quietRuns : Machine CdcCoordinator.State CdcCoordinator.Label :=
  CdcCoordinator.machine.restrict Quiet

theorem quiet_step {c c' : CdcCoordinator.State} {l : CdcCoordinator.Label}
    (h : quietRuns.Reachable c) (hs : CdcCoordinator.Step c l c') (hquiet : Quiet c l) :
    quietRuns.Reachable c' :=
  h.step ⟨hquiet, hs⟩

/-- The coordinator runs on its own, without a pause. -/
theorem reachable_run (hstart : ∀ c, CdcCoordinator.Starts c →
      runs.Reachable (s.setCoordinator "primary" c)) {c : CdcCoordinator.State}
    (h : quietRuns.Reachable c) :
    runs.Reachable (s.setCoordinator "primary" c) := by
  induction h with
  | init h => exact hstart _ h
  | @step c c' l hr hs ih =>
    have hok : PausesThrottled startConfig (s.setCoordinator "primary" c) (.cdc "primary" l) := by
      unfold PausesThrottled
      split
      · next heq =>
        cases heq
        exact absurd rfl hs.1.1
      · trivial
    have hstep := reachable_cdc ih hok hs.2
    rw [notePause_quiet hs.1] at hstep
    exact hstep

/-- The channel of `users` has `n` events, and the coordinator waits for the next one. -/
structure Filled (n : Nat) (c : CdcCoordinator.State) : Prop where
  incoming : c.incoming = []
  isPaused : c.isPaused = false
  pausedTables : c.pausedTables = ∅
  loop : c.loop = .waiting
  channel : ∃ ch, c.taskChannels "users" = some ch ∧ ch.isOpen = true ∧ ch.queue.length = n

open CdcCoordinator in
/-- The next event comes, up to the point where its channel is tried. -/
theorem reachable_sending {c : CdcCoordinator.State} {n : Nat} (hc : Filled n c)
    (h : quietRuns.Reachable c) :
    ∃ m arrived, quietRuns.Reachable { c with arrived, loop := .sending m ["users"] } := by
  have hincoming : (c.arrive (.ok usersChange)).incoming =
      [.ok ⟨c.arrived.length, usersChange⟩] := by
    simp [CdcCoordinator.State.arrive, hc.incoming]
  have h₁ : quietRuns.Reachable (c.arrive (.ok usersChange)) := quiet_step h .arrive ⟨nofun, nofun⟩
  have h₂ := quiet_step h₁ (.receive hc.loop hincoming) ⟨nofun, nofun⟩
  have h₃ := quiet_step h₂ (.checkPaused rfl) ⟨nofun, nofun⟩
  rw [if_neg (by simp [CdcCoordinator.State.arrive, hc.isPaused])] at h₃
  have h₄ := quiet_step h₃ (.checkTable rfl) ⟨nofun, nofun⟩
  rw [if_neg (by simp [CdcCoordinator.State.tablePaused, CdcCoordinator.State.arrive,
    hc.pausedTables])] at h₄
  have htargets : usersChange.targets = ["users"] := by decide
  rw [htargets] at h₄
  refine ⟨⟨c.arrived.length, usersChange⟩, (c.arrive (.ok usersChange)).arrived, ?_⟩
  rw [hc.incoming]
  exact h₄

/-- The channel gets fuller. -/
theorem reachable_fuller {c : CdcCoordinator.State} {n : Nat} (hc : Filled n c)
    (hn : n < CdcCoordinator.channelCapacity) (h : quietRuns.Reachable c) :
    ∃ c', quietRuns.Reachable c' ∧ Filled (n + 1) c' := by
  obtain ⟨m, arrived, h₁⟩ := reachable_sending hc h
  obtain ⟨ch, hch, hopen, hlength⟩ := hc.channel
  have h₂ := quiet_step h₁ (.trySend rfl hch hopen (hlength ▸ hn)) ⟨nofun, nofun⟩
  have h₃ := quiet_step h₂ (.finish rfl) ⟨nofun, nofun⟩
  refine ⟨_, h₃, hc.incoming, hc.isPaused, hc.pausedTables, rfl, ?_⟩
  refine ⟨{ ch with queue := ch.queue ++ [m] }, ?_, hopen, ?_⟩
  · show Function.update c.taskChannels "users"
      (some { ch with queue := ch.queue ++ [m] }) "users" = _
    exact Function.update_self ..
  · simp [hlength]

theorem reachable_filled (n : Nat) (hn : n ≤ CdcCoordinator.channelCapacity) :
    ∃ c, quietRuns.Reachable c ∧ Filled n c := by
  induction n with
  | zero =>
    have h₀ : quietRuns.Reachable (CdcCoordinator.registered ["users"]) :=
      .init (CdcCoordinator.registered_starts _)
    have h₁ : quietRuns.Reachable { CdcCoordinator.registered ["users"] with loop := .waiting } :=
      quiet_step (l := CdcCoordinator.Label.start true) h₀ (.start rfl) ⟨nofun, nofun⟩
    exact ⟨_, h₁, rfl, rfl, rfl, rfl, ⟨[], true⟩, rfl, rfl, rfl⟩
  | succ n ih =>
    obtain ⟨c, h, hc⟩ := ih (Nat.le_of_succ_le hn)
    exact reachable_fuller hc hn h

/-- The channel is full, and an event finds it so. -/
theorem reachable_full :
    ∃ c m, quietRuns.Reachable c ∧ c.loop = .full m "users" [] := by
  obtain ⟨c, h, hc⟩ := reachable_filled CdcCoordinator.channelCapacity le_rfl
  obtain ⟨m, arrived, h₁⟩ := reachable_sending hc h
  obtain ⟨ch, hch, hopen, hlength⟩ := hc.channel
  exact ⟨_, m, quiet_step h₁ (.trySendFull rfl hch hopen hlength.ge) ⟨nofun, nofun⟩, rfl⟩

/-- One task for the table `users`, which the manager knows with these sizes. -/
def start (metrics : Dict ChannelMetrics) : State where
  coordinators _ := CdcCoordinator.registered ["users"]
  metrics
  monitor := .waiting
  events := []
  handler := .waiting
  fullPauses := ∅

theorem start_starts {c : CdcCoordinator.State} (hc : CdcCoordinator.Starts c) :
    Starts ((start (registerTable ∅ "users")).setCoordinator "primary" c) where
  coordinators source := by
    by_cases hsource : source = "primary"
    · subst hsource
      simpa [State.setCoordinator] using hc
    · have hother := CdcCoordinator.registered_starts ["users"]
      simpa [State.setCoordinator, hsource, start] using hother
  metrics table metric h := by
    replace h : (AList.insert "users" ⟨0, false⟩ ∅ : Dict ChannelMetrics).lookup table =
      some metric := h
    by_cases htable : table = "users"
    · subst htable
      rw [AList.lookup_insert] at h
      exact (Option.some.inj h).symm
    · rw [AList.lookup_insert_ne htable] at h
      cases h
  monitor := rfl
  events := rfl
  handler := rfl
  fullPauses := rfl

/-- The manager has been told that the channel is full, and its sweep has seen it. -/
def throttled : State :=
  let metrics := updateChannelSize (registerTable ∅ "users") "users" 1000
  let entry : String × ChannelMetrics := ("users", ⟨1000, false⟩)
  { start (applyDecision metrics (decision startConfig entry)) with
    monitor := .sweeping [entry] [] }

theorem reachable_throttled {c : CdcCoordinator.State} (hc : CdcCoordinator.Starts c) :
    runs.Reachable (throttled.setCoordinator "primary" c) := by
  have h₀ : runs.Reachable ((start (registerTable ∅ "users")).setCoordinator "primary" c) :=
    .init (start_starts hc)
  have h₁ := h₀.step (l := Label.updateChannelSize "users" 1000) ⟨trivial, .updateChannelSize⟩
  have h₂ := h₁.step (l := Label.snapshot [("users", ⟨1000, false⟩)])
    ⟨trivial, .snapshot rfl (.refl _)⟩
  have h₃ := h₂.step (l := Label.check) ⟨trivial, .check rfl⟩
  exact h₃

/-- A pause of a throttled table. -/
theorem pauses_lift_users :
    ∃ s : State, ("primary", "users") ∈ s.fullPauses ∧ s.PausesLift startConfig := by
  obtain ⟨c, m, hc, hloop⟩ := reachable_full
  have h₁ := reachable_run (fun c hc => reachable_throttled hc) hc
  have hs : CdcCoordinator.Step c .pauseFull _ := .pauseFull hloop
  have hthrottled : isThrottled throttled.metrics "users" = true := by decide
  have h₂ := reachable_cdc h₁ ?_ hs
  · refine ⟨_, ?_, pauses_lift _ _ _ h₂⟩
    simp [notePause, hloop]
  · intro m' name rest hfull
    simp [State.setCoordinator, hloop] at hfull
    exact .inr (hfull.2.1 ▸ hthrottled)

/-- Nobody has told the manager the size of the channel when the coordinator pauses its table. -/
theorem pauses_not_always_lift :
    ¬ ∀ s, (machine startConfig ["primary"]).Reachable s → s.PausesLift startConfig := by
  intro h
  obtain ⟨c, m, hc, hloop⟩ := reachable_full
  have h₁ := (reachable_run (fun c hc => .init (start_starts hc)) hc).of_restrict
  have hs : CdcCoordinator.Step _ _ _ := .pauseFull hloop
  have h₂ := h₁.step (l := Label.cdc "primary" .pauseFull) (.cdc (List.mem_singleton_self _) (by
    simpa [State.setCoordinator] using hs))
  have hlift := h _ h₂ "primary" "users" (by
    simp [State.cdc, State.setCoordinator, notePause, hloop])
  rcases hlift with (hsend | hevents | ⟨sources, hhandler, -⟩) | hreleases
  · cases hsend
  · cases hevents
  · cases hhandler
  · cases hreleases.1

end Backpressure

end MeiliBridge
