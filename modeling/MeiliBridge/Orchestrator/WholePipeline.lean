import MeiliBridge.Orchestrator.Mirror
import MeiliBridge.Pipeline.ChannelComplete
import MeiliBridge.Source.Arrivals

/-!
# From the log of the source to the index

One process from its start on. It connects, which makes the slot, and the coordinator and the full
sync of the task begin side by side: what is committed meanwhile waits in the task's channel. When
the last import is answered the task's loop is started, and sends its batches through the same
channel to the same processor.

`index_mirrors_source` puts together what holds of the single parts. Whatever the order of the steps
was, once all that is committed has gone through, the index is the table, although the full sync may
have read the table while it changed.
-/

set_option autoImplicit false

namespace MeiliBridge

open Interaction Trans

structure Bridge extends Deployment where
  /-- `parse_test_decoding_message` -/
  decode : String → String → Result (Option Event)
  /-- which texts are an LSN -/
  parsesLsn : String → Bool
  /-- the tables of the source's tasks -/
  tables : List String

namespace Bridge

variable (b : Bridge)

/-- The task's source, whose task does not go the parallel path. -/
def setup : Replication.Setup := ⟨b.decode, b.parsesLsn, b.tables, b.table, b.stream, false⟩

structure State where
  log : List Replication.Row
  slot : Replication.Slot
  process : Replication.Process
  /-- the places in the log of the rows that were read -/
  read : List Nat
  polled : Bool
  processor : DestinationProcessor.State
  /-- the full sync is not over -/
  syncing : Bool

def State.source (s : State) : Replication.State :=
  ⟨s.log, s.slot, .up s.process, none, s.read, s.polled⟩

def State.feed (s : State) : TaskFeed := ⟨s.process.coordinator, s.process.stream⟩

/-- The batches that the task has sent. -/
def State.batches (s : State) : List (List Event) := sentBatches s.process.stream.world.log

inductive Label where
  /-- a commit, or a step of the consumer or of the task that stores the checkpoints -/
  | source (l : Replication.Label)
  | feed (l : FeedLabel)
  | importDocuments (documents : List Value) (primaryKey : Option String)
  | endSync
  | processor (l : DestinationProcessor.Label)

/-- The steps of the source that are not the coordinator's and not the task's. -/
def OfSource : Replication.Label → Prop
  | .coordinate _ | .turn _ => False
  | _ => True

/-- The coordinator goes on by itself, and the task when its full sync is over. -/
def Goes (s : State) : FeedLabel → Prop
  | .coordinate l => Replication.coordinatorOwn b.table l = true
  | .receive | .tick | .shutdown _ => s.syncing = false

/-- No command that changes the index is waiting for its answer. -/
def Answered (s : State) : Prop := ∀ command ∈ s.processor.queue, ¬ b.WritesIndex command

inductive Step : State → Label → State → Prop
  | source {s : State} {l : Replication.Label} {log : List Replication.Row}
      {slot : Replication.Slot} {process : Replication.Process} {read : List Nat} {polled : Bool}
      (hl : OfSource l)
      (h : Replication.Step b.setup s.source l ⟨log, slot, .up process, none, read, polled⟩) :
      Step s (.source l) ⟨log, slot, process, read, polled, s.processor, s.syncing⟩
  | feed {s : State} {l : FeedLabel} {feed : TaskFeed} {batches : List (List Event)}
      {processor : DestinationProcessor.State} (hgoes : b.Goes s l)
      (h : FeedStep b.stream b.table s.feed l feed)
      (hbatches : sentBatches feed.task.world.log = s.batches ++ batches)
      (hsends : b.Sends s.processor (batches.map .processEvents) processor) :
      Step s (.feed l)
        { s with
          process := { s.process with coordinator := feed.coordinator, stream := feed.task }
          processor }
  /-- `import_documents`, which waits for the answer to each command -/
  | importDocuments {s : State} {documents : List Value} {primaryKey : Option String}
      {processor : DestinationProcessor.State} (hsyncing : s.syncing = true)
      (hanswered : b.Answered s)
      (h : DestinationProcessor.Step b.server b.stream.rt b.adapter s.processor
        (.send (.importData b.indexName documents primaryKey)) processor) :
      Step s (.importDocuments documents primaryKey) { s with processor }
  | endSync {s : State} (hsyncing : s.syncing = true) (hanswered : b.Answered s) :
      Step s .endSync { s with syncing := false }
  | processor {s : State} {l : DestinationProcessor.Label}
      {processor : DestinationProcessor.State} (hothers : b.FromOthers l)
      (h : DestinationProcessor.Step b.server b.stream.rt b.adapter s.processor l processor) :
      Step s (.processor l) { s with processor }

/-- The process has connected to a slot that has passed `since` rows, and everything is started on
these documents. -/
structure Starts (initial : Documents) (since : Nat) (s : State) : Prop where
  source : Replication.Starts b.setup s.source
  since : s.slot.confirmed = since
  log : s.process.stream.world.log = []
  processor : s.processor = ⟨.connecting, [], initial, [], []⟩
  syncing : s.syncing = true

def machine (initial : Documents) (since : Nat) : Machine State Label where
  init := b.Starts initial since
  step := b.Step

/-- The coordinator finds no flag set for an event of the task, and no panic costs the task its
batch. -/
def Calm (s : State) : Label → Prop
  | .feed (.coordinate k) => CdcCoordinator.Unpaused b.table s.process.coordinator k
  | .feed l => SparesBatch b.stream b.table s.feed l
  | .source _ | .importDocuments _ _ | .endSync | .processor _ => True

variable {b} {initial : Documents} {since : Nat} {s s' : State} {l : Label}

/-! ## The source and the coordinator -/

/-- Surroundings that allow more choices allow more turns. -/
theorem streamMachine_mono {params : EventStreamParams} {P P' : Choice → Prop}
    (hP : ∀ c, P c → P' c) {t t' : StreamState} {arm : Arm}
    (h : (streamMachine params P).step t arm t') : (streamMachine params P').step t arm t' := by
  obtain ⟨hrunning, r, w, hruns, rfl⟩ := h
  exact ⟨hrunning, r, w, hruns.mono hP, rfl⟩

theorem processStep_of_feedStep {l : FeedLabel} {feed : TaskFeed} (hgoes : b.Goes s l)
    (h : FeedStep b.stream b.table s.feed l feed) : ∃ k, Replication.ProcessStep b.setup s.process k
      { s.process with coordinator := feed.coordinator, stream := feed.task } := by
  cases h with
  | coordinate _ _ h => exact ⟨_, .coordinate hgoes h⟩
  | @receive ch m rest task hch hqueue h =>
    have harm : s.process.afterArm b.setup (.event (.ok m.event)) =
        s.process.coordinator.setChannel b.table { ch with queue := rest } := by
      have hch' : s.process.coordinator.taskChannels b.setup.table = some ch := hch
      simp only [Replication.Process.afterArm, hch', hqueue, List.tail_cons]
      rfl
    have hoffers : s.process.Offers b.setup (.event (.ok m.event)) :=
      ⟨ch, m, rest, hch, hqueue, rfl⟩
    have hturn := Replication.ProcessStep.turn rfl hoffers
      (streamMachine_mono (fun _ _ => trivial) h)
    rw [harm] at hturn
    exact ⟨_, hturn⟩
  | tick h =>
    have hoffers : s.process.Offers b.setup .tick := trivial
    exact ⟨_, .turn rfl hoffers (streamMachine_mono (fun _ _ => trivial) h)⟩
  | @shutdown requested task h =>
    have hoffers : s.process.Offers b.setup (.shutdown requested) := trivial
    exact ⟨_, .turn rfl hoffers (streamMachine_mono (fun _ _ => trivial) h)⟩

theorem reachable_source (h : (b.machine initial since).Reachable s) :
    (Replication.machine b.setup).Reachable s.source := by
  induction h with
  | init h => exact .init h.source
  | step _ hs ih =>
    cases hs with
    | source _ h => exact ih.step h
    | feed hgoes h =>
      obtain ⟨k, hk⟩ := processStep_of_feedStep hgoes h
      exact ih.step (l := k) (.process rfl hk)
    | importDocuments | endSync | processor => exact ih

/-- What a step at the source does to the feed: the task's loop rests. -/
structure Passes (b : Bridge) (s : State) (process : Replication.Process) : Prop where
  coordinator : process.coordinator = s.process.coordinator ∨
    ∃ k, k ≠ .recv b.table ∧ (∀ c, CdcCoordinator.Unpaused b.table c k) ∧
      CdcCoordinator.Step s.process.coordinator k process.coordinator
  log : process.stream.world.log = s.process.stream.world.log
  batch : process.stream.batch = s.process.stream.batch
  received : process.stream.received = s.process.stream.received
  running : process.stream.running = s.process.stream.running

theorem log_exec_saveCheckpoint (c : Choice) (cp : Checkpoint) (w : World) :
    (w.exec c (.saveCheckpoint cp)).2.log = w.log := by
  show ((c.storage cp.taskId).call w _).2.log = _
  rw [Reply.call_snd]
  split <;> rfl

theorem log_exec_deleteCheckpoint (c : Choice) (taskId : String) (w : World) :
    (w.exec c (.deleteCheckpoint taskId)).2.log = w.log := by
  show ((c.storage taskId).call w _).2.log = _
  rw [Reply.call_snd]
  split <;> rfl

theorem passes_of_processStep {k : Replication.Label} {process : Replication.Process}
    (hk : OfSource k) (h : Replication.ProcessStep b.setup s.process k process) :
    b.Passes s process := by
  cases h with
  | coordinate | turn => exact absurd hk id
  | takeParallel hpath | moveParallel hpath => cases hpath
  | @report n hconsumer hroom =>
    exact ⟨.inr ⟨.arrive (.error (Replication.lostConnection n)), nofun, fun _ => trivial,
      .arrive⟩, rfl, rfl, rfl, rfl⟩
  | @send row rest event hconsumer hdecode hroom =>
    exact ⟨.inr ⟨.arrive (.ok event), nofun, fun _ => trivial, .arrive⟩, rfl, rfl, rfl, rfl⟩
  | flush => exact ⟨.inl rfl, log_exec_saveCheckpoint .., rfl, rfl, rfl⟩
  | cleanUp => exact ⟨.inl rfl, log_exec_deleteCheckpoint .., rfl, rfl, rfl⟩
  | _ => exact ⟨.inl rfl, rfl, rfl, rfl, rfl⟩

theorem passes_of_step {k : Replication.Label} {log : List Replication.Row}
    {slot : Replication.Slot} {process : Replication.Process} {read : List Nat} {polled : Bool}
    (hk : OfSource k)
    (h : Replication.Step b.setup s.source k ⟨log, slot, .up process, none, read, polled⟩) :
    b.Passes s process := by
  cases h with
  | commit => exact ⟨.inl rfl, rfl, rfl, rfl, rfl⟩
  | getChanges hup h =>
    cases hup
    exact ⟨.inr ⟨.start true, nofun, fun _ => trivial, h⟩, rfl, rfl, rfl, rfl⟩
  | poll hup hconsumer =>
    cases hup
    exact ⟨.inl rfl, rfl, rfl, rfl, rfl⟩
  | process hup h =>
    cases hup
    exact passes_of_processStep hk h
  | restart hdown => cases hdown

theorem feed_starts (h : b.Starts initial since s) : FeedStarts b.stream s.feed := by
  obtain ⟨adapter, loads, w, hup⟩ := h.source.up
  have hprocess : s.process = Replication.boot b.setup adapter loads w :=
    Replication.Phase.up.inj hup
  refine ⟨?_, ?_, h.log⟩
  · show CdcCoordinator.Starts s.process.coordinator
    rw [hprocess]
    exact CdcCoordinator.registered_starts _
  · show (streamMachine b.stream Choice.ChannelOpen).init s.process.stream
    rw [hprocess]
    exact ⟨rfl, rfl, rfl⟩

/-- The coordinator's part of a calm run. -/
theorem reachable_coordinator (h : ((b.machine initial since).restrict b.Calm).Reachable s) :
    (CdcCoordinator.machine.restrict (CdcCoordinator.Unpaused b.table)).Reachable
      s.process.coordinator := by
  induction h with
  | init h => exact .init (feed_starts h).coordinator
  | step _ hs ih =>
    obtain ⟨hcalm, hs⟩ := hs
    cases hs with
    | source hl h =>
      rcases (passes_of_step hl h).coordinator with hsame | ⟨k, -, hunpaused, hstep⟩
      · show (CdcCoordinator.machine.restrict _).Reachable _
        rw [hsame]
        exact ih
      · exact ih.step ⟨hunpaused _, hstep⟩
    | feed hgoes h =>
      cases h with
      | coordinate _ _ h => exact ih.step ⟨hcalm, h⟩
      | receive hch hqueue => exact ih.step (l := .recv b.table) ⟨trivial, .recv hch hqueue⟩
      | tick | shutdown => exact ih
    | importDocuments | endSync | processor => exact ih

theorem Calm.spares {l : FeedLabel} (h : b.Calm s (.feed l)) :
    SparesBatch b.stream b.table s.feed l := by
  cases l with
  | coordinate k => trivial
  | receive | tick | shutdown requested => exact h

/-- While the source goes on, the task has what it had. -/
theorem Passes.feedInv {process : Replication.Process} (h : b.Passes s process)
    (hordered : CdcCoordinator.Ordered s.process.coordinator)
    (hi : FeedInv b.stream b.table s.feed) :
    FeedInv b.stream b.table ⟨process.coordinator, process.stream⟩ := by
  refine ⟨?_, ?_⟩
  · show CdcCoordinator.Fifo process.coordinator b.table process.stream.received
    rw [h.received]
    rcases h.coordinator with hsame | ⟨k, hrecv, -, hstep⟩
    · rw [hsame]
      exact hi.fifo
    · exact hi.fifo.step hordered hstep hrecv
  · have hsends := hi.sends
    exact ⟨by rw [h.log, h.batch, h.received]; exact hsends.sent,
      by rw [h.running, h.batch]; exact hsends.stopped,
      by rw [h.log]; exact hsends.sizes,
      by rw [h.batch]; exact hsends.pending⟩

theorem reachable_feedInv (hstandard : b.stream.task.atLeastOnce = none)
    (hsize : 1 ≤ b.stream.batchSize)
    (h : ((b.machine initial since).restrict b.Calm).Reachable s) :
    FeedInv b.stream b.table s.feed := by
  have hordered : ∀ s, ((b.machine initial since).restrict b.Calm).Reachable s →
      CdcCoordinator.Ordered s.process.coordinator :=
    fun s hs => CdcCoordinator.reachable_ordered (reachable_coordinator hs).of_restrict
  refine h.invariant_using (I := fun s => FeedInv b.stream b.table s.feed) hordered
    (fun s hs => .init hsize (feed_starts hs)) ?_
  rintro s l s' hordered hi ⟨hcalm, hs⟩
  cases hs with
  | source hl h => exact (passes_of_step hl h).feedInv hordered hi
  | feed hgoes h => exact hi.step hstandard hordered hcalm.spares h
  | importDocuments | endSync | processor => exact hi

/-! ## The processor -/

theorem reachable_processor (h : (b.machine initial since).Reachable s) :
    (DestinationProcessor.machine b.server b.stream.rt b.adapter initial).Reachable
      s.processor := by
  induction h with
  | init h => exact .init h.processor
  | step _ hs ih =>
    cases hs with
    | source | endSync => exact ih
    | feed _ _ _ hsends => exact hsends.reachable ih
    | importDocuments _ _ h | processor _ h => exact ih.step h

/-- The commands that change the index are the imports of the full sync and, after them, the batches
of the task. -/
structure Wired (b : Bridge) (s : State) : Prop where
  sent : ∃ imports : List DestinationCommand,
    (∀ command ∈ imports, ∃ documents primaryKey,
      command = .importData b.indexName documents primaryKey) ∧
    s.processor.sent.filter b.WritesIndex =
      imports ++ (s.batches.map .processEvents).filter b.WritesIndex
  syncing : s.syncing = true → s.batches = []

theorem reachable_wired (h : (b.machine initial since).Reachable s) : b.Wired s := by
  refine h.invariant (I := b.Wired) (fun s h => ?_) ?_
  · have hnone : s.batches = [] := by rw [State.batches, h.log]; rfl
    refine ⟨⟨[], by simp, ?_⟩, fun _ => hnone⟩
    rw [h.processor, hnone]
    rfl
  · intro s l s' hi hs
    obtain ⟨imports, himports, hsent⟩ := hi.sent
    cases hs with
    | @source l log slot process read polled hl h =>
      have hsame : State.batches ⟨log, slot, process, read, polled, s.processor, s.syncing⟩ =
          s.batches := congrArg sentBatches (passes_of_step hl h).log
      exact ⟨⟨imports, himports, by rw [hsame]; exact hsent⟩, by rw [hsame]; exact hi.syncing⟩
    | @feed l feed batches processor hgoes h hbatches hsends =>
      refine ⟨⟨imports, himports, ?_⟩, fun hsyncing => ?_⟩
      · show processor.sent.filter _ = imports ++ ((sentBatches _).map _).filter _
        rw [hsends.sent, hbatches, List.map_append, List.filter_append, List.filter_append, hsent,
          List.append_assoc]
      · -- only the coordinator goes on
        show sentBatches feed.task.world.log = []
        have hsyncing : s.syncing = true := hsyncing
        cases h with
        | coordinate => exact hi.syncing hsyncing
        | receive | tick | shutdown =>
          have hover : s.syncing = false := hgoes
          rw [hover] at hsyncing
          cases hsyncing
    | @importDocuments documents primaryKey processor hsyncing hanswered h =>
      have hnone := hi.syncing hsyncing
      refine ⟨⟨imports ++ [.importData b.indexName documents primaryKey], ?_, ?_⟩, fun _ => hnone⟩
      · intro command hcommand
        rcases List.mem_append.mp hcommand with hold | hnew
        · exact himports command hold
        · exact ⟨documents, primaryKey, List.mem_singleton.mp hnew⟩
      · cases h
        have hwrites : b.WritesIndex (.importData b.indexName documents primaryKey) := rfl
        show (s.processor.sent ++ [_]).filter _ =
          _ ++ (s.batches.map .processEvents).filter b.WritesIndex
        rw [hnone] at hsent ⊢
        rw [List.filter_append, hsent]
        simp [hwrites]
    | endSync => exact ⟨⟨imports, himports, hsent⟩, nofun⟩
    | @processor l processor hothers h =>
      refine ⟨⟨imports, himports, ?_⟩, hi.syncing⟩
      rcases Deployment.sent_of_step h with hsame | ⟨command, rfl, hmore⟩
      · show processor.sent.filter _ = _
        rw [hsame]
        exact hsent
      · show processor.sent.filter _ = _
        have hno : ¬ b.WritesIndex command := hothers
        rw [hmore, List.filter_append, hsent]
        simp [hno, State.batches]

/-! ## What was read -/

/-- What the process has read is what the slot has passed since the start. -/
theorem reachable_readsOn (h : (b.machine initial since).Reachable s) :
    Replication.ReadsOn since s.source := by
  refine h.invariant (I := fun s => Replication.ReadsOn since s.source) (fun s h => ?_) ?_
  · refine ⟨h.source.plugin, h.since.ge, h.source.confirmed, ?_⟩
    show s.read = List.range' since (s.slot.confirmed - since)
    rw [h.since, Nat.sub_self]
    exact h.source.read
  · intro s l s' hi hs
    cases hs with
    | @source k log slot process read polled hl h =>
      refine hi.step ?_ h
      rintro w rfl
      cases h with
      | process hup h => cases h
    | feed | importDocuments | endSync | processor =>
      exact ⟨hi.plugin, hi.started, hi.confirmed, hi.read⟩

/-! ## When all has gone through -/

/-- The task's events of what was committed since the start. -/
def changes (b : Bridge) (since : Nat) (s : State) : List Event :=
  (b.setup.events (s.log.drop since)).filter (b.table ∈ ·.targets)

/-- Nothing is on its way, and everything for the task's index is reported without failures. -/
structure Settled (b : Bridge) (s : State) : Prop where
  consumer : ∃ n, s.process.consumer = some (.polling n)
  slot : s.slot.confirmed = s.log.length
  incoming : s.process.coordinator.incoming = []
  loop : s.process.coordinator.loop = .waiting
  channel : s.process.coordinator.taskChannels b.table = some ⟨[], true⟩
  batch : s.process.stream.batch = []
  answered : b.Answered s
  reported : ∀ e ∈ s.processor.served, b.WritesIndex e.command → e.Reported

/-- The coordinator has got everything. -/
theorem Settled.arrived (hsettled : b.Settled s) (h : (b.machine initial since).Reachable s) :
    s.process.arrived = b.setup.events (s.log.drop since) := by
  obtain ⟨n, hconsumer⟩ := hsettled.consumer
  have harrives := (Replication.reachable_readInv (reachable_source h)).arrives _ rfl
  have hwhole := harrives.whole (by simp [hconsumer])
  have hhand : s.process.hand = [] := Replication.hand_of_not_sending (by simp [hconsumer])
  have hrows : s.source.rowsRead = s.log.drop since := by
    have hread : s.read = List.range' since (s.slot.confirmed - since) := (reachable_readsOn h).read
    show s.read.filterMap (s.log[·]?) = _
    rw [hread, hsettled.slot, Replication.filterMap_getElem?_range']
  rw [hhand, hrows] at hwhole
  rw [← hwhole]
  exact (List.append_nil _).symm

/-- The task has received all the changes, in their order. -/
theorem Settled.received (hstandard : b.stream.task.atLeastOnce = none)
    (hsize : 1 ≤ b.stream.batchSize) (hsettled : b.Settled s)
    (h : ((b.machine initial since).restrict b.Calm).Reachable s) :
    s.process.stream.received = b.changes since s := by
  have hopen : s.process.coordinator.OpenChannel b.table := ⟨_, hsettled.channel, rfl⟩
  have hfifo : (s.process.stream.received ++ (s.process.coordinator.queueOf b.table).map
      CdcCoordinator.Message.event).map some = s.process.coordinator.puts b.table :=
    (reachable_feedInv hstandard hsize h).fifo.whole hopen
  rw [CdcCoordinator.State.queueOf_some hsettled.channel, List.map_nil, List.append_nil] at hfifo
  have hcomplete := CdcCoordinator.reachable_complete (reachable_coordinator h) hopen
  have hout : s.process.coordinator.outstanding b.table = [] := by
    have hhand : s.process.coordinator.loop.hand = none := by rw [hsettled.loop]; rfl
    rw [CdcCoordinator.State.outstanding, CdcCoordinator.handed_of_none hhand,
      CdcCoordinator.State.queued, hsettled.incoming]
    rfl
  have harrived : s.process.coordinator.arrivedFor b.table = b.changes since s := by
    rw [changes, ← hsettled.arrived h.of_restrict]
    rfl
  unfold CdcCoordinator.Complete at hcomplete
  rw [hout, List.map_nil, List.append_nil, ← hfifo, harrived] at hcomplete
  have hsome : Function.Injective (some : Event → Option Event) := fun _ _ => Option.some.inj
  exact List.map_injective_iff.mpr hsome hcomplete

section Imports

open MirroredTable

variable {d : Deployment}

theorem imported_append (commands commands' : List DestinationCommand) :
    imported d (commands ++ commands') = imported d commands ++ imported d commands' :=
  List.flatMap_append

theorem imported_filter (commands : List DestinationCommand) :
    imported d (commands.filter d.WritesIndex) = imported d commands := by
  induction commands with
  | nil => rfl
  | cons command rest ih =>
    rw [← List.singleton_append, List.filter_append, imported_append, imported_append, ih]
    congr 1
    by_cases hwrites : d.WritesIndex command
    · rw [List.filter_cons_of_pos (by simpa using hwrites)]
      rfl
    · rw [List.filter_cons_of_neg (by simpa using hwrites)]
      cases command with
      | importData index documents pk =>
        have hne : ¬ index = d.indexName := hwrites
        simp [imported, hne]
      | processEvents | ensureIndex | healthCheck | shutdown => rfl

theorem imported_batches (batches : List (List Event)) :
    imported d (batches.map .processEvents) = [] := by
  induction batches with
  | nil => rfl
  | cons batch rest ih => exact ih

end Imports

/-- The index has the imports and, on top of them, the operations of the changes. -/
theorem Settled.index_eq (hstandard : b.stream.task.atLeastOnce = none)
    (hsize : 1 ≤ b.stream.batchSize) (hsettled : b.Settled s)
    (h : ((b.machine initial since).restrict b.Calm).Reachable s)
    (hrouted : ∀ e ∈ b.stream.stages.outputs b.stream.rt (b.changes since s),
      b.adapter.indexName b.stream.rt e = some b.indexName)
    (hregroup : ∀ batch ∈ s.batches, KeyedLog.Regroupable (b.operations batch)) :
    s.processor.documents b.indexName = KeyedLog.run
      (b.operations (b.stream.stages.outputs b.stream.rt (b.changes since s)))
      (KeyedLog.run ((MirroredTable.imported b.toDeployment s.processor.sent).filterMap
        (b.server.addition b.indexName)) (initial b.indexName)) := by
  obtain ⟨imports, himports, hsent⟩ := (reachable_wired h.of_restrict).sent
  have hlaw := DestinationProcessor.reachable_servesInOrder (reachable_processor h.of_restrict)
  have hqueue : s.processor.queue.filter b.WritesIndex = [] :=
    List.filter_eq_nil_iff.mpr fun command hcommand hwrites =>
      hsettled.answered command hcommand (of_decide_eq_true hwrites)
  have hall : (s.processor.served.map (·.command)).filter b.WritesIndex =
      s.processor.sent.filter b.WritesIndex := by
    rw [← hlaw.order, List.filter_append, hqueue, List.append_nil]
  have himported : MirroredTable.imported b.toDeployment s.processor.sent =
      MirroredTable.imported b.toDeployment imports := by
    rw [← imported_filter, hsent, imported_append, imported_filter, imported_batches,
      List.append_nil]
  -- the batches are all of what the stages make of the changes
  have hflatten : s.batches.flatten = b.stream.stages.outputs b.stream.rt (b.changes since s) := by
    have houtputs : s.batches.flatten ++ s.process.stream.batch =
        b.stream.stages.outputs b.stream.rt s.process.stream.received :=
      (reachable_feedInv hstandard hsize h).sends.sent
    rwa [hsettled.batch, List.append_nil, hsettled.received hstandard hsize h] at houtputs
  have hbatches : ∀ batch ∈ s.batches, ∀ e ∈ batch,
      b.adapter.indexName b.stream.rt e = some b.indexName := by
    intro batch hbatch e he
    apply hrouted
    rw [← hflatten]
    exact List.mem_flatten.mpr ⟨batch, hbatch, he⟩
  rw [hlaw.linked.index_eq hlaw.faithful hsettled.reported, ← Deployment.flatMap_filter_writes,
    hall, hsent, List.flatMap_append, Deployment.flatMap_filter_writes,
    MirroredTable.flatMap_imports fun command hcommand _ => himports command hcommand,
    Deployment.flatMap_batches hbatches, KeyedLog.run_append, KeyedLog.run_flatMap_regroup ?_,
    ← Deployment.operations_flatten, hflatten, himported]
  intro ops hops
  obtain ⟨batch, hbatch, rfl⟩ := List.mem_map.mp hops
  exact hregroup batch hbatch

/-! ### A book that comes during the full sync -/

/-- The second book, as the slot returns it. -/
def bookRow : Replication.Row := ⟨"0/10", "731", "table public.books: INSERT: id[text]:'b1'"⟩

def booksBridge : Bridge where
  toDeployment := Deployment.booksDeployed
  decode _ data := .ok (if data = bookRow.data then some bookInserted else none)
  parsesLsn _ := true
  tables := ["books"]

def booksBegin : State where
  log := []
  slot := ⟨"test_decoding", 0⟩
  process := Replication.boot booksBridge.setup ⟨none⟩ [] freshWorld
  read := []
  polled := false
  processor := ⟨.connecting, [], DestinationProcessor.noDocuments, [], []⟩
  syncing := true

theorem booksBegin_starts : booksBridge.Starts DestinationProcessor.noDocuments 0 booksBegin where
  source := ⟨⟨⟨none⟩, [], freshWorld, rfl⟩, rfl, Nat.le_refl _, rfl, rfl, rfl⟩
  since := rfl
  log := rfl
  processor := rfl
  syncing := rfl

theorem reachable_coordinate {k : CdcCoordinator.Label} {coordinator : CdcCoordinator.State}
    (h : ((b.machine initial since).restrict b.Calm).Reachable s)
    (hk : Replication.coordinatorOwn b.table k = true ∧ k ≠ .recv b.table ∧ k ≠ .close b.table)
    (hunpaused : CdcCoordinator.Unpaused b.table s.process.coordinator k)
    (hs : CdcCoordinator.Step s.process.coordinator k coordinator) :
    ((b.machine initial since).restrict b.Calm).Reachable
      { s with process := { s.process with coordinator } } := by
  have hgoes : b.Goes s (.coordinate k) := hk.1
  exact h.step (l := Label.feed (.coordinate k)) ⟨hunpaused, .feed hgoes
    (.coordinate hk.2.1 (fun heq => absurd heq hk.2.2) hs) (List.append_nil _).symm rfl⟩

/-- **From the log of the source to the index.** The full sync reads the table while it changes, and
the changes wait in the channel until it is over. When all has gone through, the index is the table,
whatever the order of the steps was. -/
theorem index_mirrors_source (t : MirroredTable) (b : Bridge)
    (hstandard : b.stream.task.atLeastOnce = none) (hsize : 1 ≤ b.stream.batchSize)
    (hfollows : t.Follows b.toDeployment) (initial : Documents)
    (hempty : initial b.indexName = fun _ => none) (since : Nat) (s : State)
    (h : ((b.machine initial since).restrict b.Calm).Reachable s) (hsettled : b.Settled s)
    (hchanges : b.changes since s = t.changes.map t.event)
    (hregroup : ∀ batch ∈ s.batches, KeyedLog.Regroupable (b.operations batch)) (lo hi : Nat)
    (hsnapshot : t.Snapshot b.toDeployment lo hi
      (MirroredTable.imported b.toDeployment s.processor.sent)) (hhi : hi ≤ t.changes.length) :
    s.processor.documents b.indexName = fun k => (t.rows t.changes.length k).map t.image := by
  have hsub : ∀ c ∈ t.changes, c ∈ t.changes := fun c hc => hc
  obtain ⟨houtputs, hops⟩ := hfollows.outputs hsub
  rw [← hchanges] at houtputs hops
  have hlog : KeyedLog.segment t.log 0 t.changes.length = t.log := by
    rw [KeyedLog.segment, List.drop_zero]
    exact List.take_of_length_le (Nat.le_of_eq (List.length_map _))
  rw [hsettled.index_eq hstandard hsize h (fun e he => (houtputs e he).1) hregroup, hops, hempty,
    ← MirroredTable.after_log]
  have hcaught := (t.asOf_iff.mp hsnapshot).caughtUp (Nat.zero_le lo) (Nat.zero_le _) hhi
  rwa [hlog] at hcaught

/-- The second book is committed, and queued by the coordinator, before the full sync is over. -/
theorem index_mirrors_source_books :
    ∃ s : State, s.process.stream.received = [bookInserted] ∧
      s.processor.documents "books" =
        fun k => (MirroredTable.bookTable.rows 1 k).map Value.object := by
  have h₀ : ((booksBridge.machine DestinationProcessor.noDocuments 0).restrict
      booksBridge.Calm).Reachable booksBegin := .init booksBegin_starts
  have h₁ := h₀.step (l := Label.processor (.connect true))
    ⟨trivial, .processor trivial (.connect rfl)⟩
  have h₂ := h₁.step (l := Label.source (.getChanges none))
    ⟨trivial, .source trivial (.getChanges rfl (.start rfl))⟩
  -- the full sync reads the book before the change that inserts it is polled
  have h₃ := h₂.step (l := Label.importDocuments [.object [("id", .number (.ofNat 1))]] none)
    ⟨trivial, .importDocuments rfl (List.forall_mem_nil _) (.send (by decide) (by decide))⟩
  have h₄ := h₃.step (l := Label.source (.commit bookRow)) ⟨trivial, .source trivial .commit⟩
  have h₅ := h₄.step (l := Label.source .poll) ⟨trivial, .source trivial (.poll rfl rfl)⟩
  have hdecode : booksBridge.setup.decode "0/10" bookRow.data = .ok (some bookInserted) := rfl
  have h₆ := h₅.step (l := Label.source .send)
    ⟨trivial, .source trivial (.process rfl (.send rfl hdecode (Nat.zero_lt_succ _)))⟩
  -- the coordinator puts the change in the task's channel
  have h₇ := reachable_coordinate (k := .receive) h₆ (by simp [Replication.coordinatorOwn]) trivial
    (.receive rfl rfl)
  have h₈ := reachable_coordinate (k := .checkPaused) h₇ (by simp [Replication.coordinatorOwn])
    (fun _ _ _ => rfl) (.checkPaused rfl)
  have h₉ := reachable_coordinate (k := .checkTable) h₈ (by simp [Replication.coordinatorOwn])
    (fun m _ _ => by simp [CdcCoordinator.State.tablePaused, Replication.boot, booksBegin,
      CdcCoordinator.State.arrive, CdcCoordinator.registered]) (.checkTable rfl)
  have h₁₀ := reachable_coordinate (k := .trySend) h₉ (by simp [Replication.coordinatorOwn]) trivial
    (.skip rfl fun ch hch => absurd hch (Option.some_ne_none ch).symm)
  have h₁₁ := reachable_coordinate (k := .trySend) h₁₀ (by simp [Replication.coordinatorOwn])
    trivial (.trySend rfl rfl rfl (by decide))
  have h₁₂ := reachable_coordinate (k := .finish) h₁₁ (by simp [Replication.coordinatorOwn]) trivial
    (.finish rfl)
  have hserve : DestinationProcessor.serve pricesStream.rt idAdapter 10 true
      DestinationProcessor.importBook = some _ := rfl
  have h₁₃ := h₁₂.step (l := Label.processor .serve) ⟨trivial, .processor trivial
    (.serve (r := .ok DestinationProcessor.completed) (w := DestinationProcessor.oneBook)
      rfl rfl hserve ⟨.succeeds, trivial, .succeeds, trivial, rfl, rfl⟩)⟩
  have h₁₄ := h₁₃.step (l := Label.endSync) ⟨trivial, .endSync rfl (List.forall_mem_nil _)⟩
  -- the task starts when the import is answered, and takes the change
  have h₁₅ := h₁₄.step (l := Label.feed .receive) ⟨fun _ _ _ _ _ _ => rfl,
    .feed rfl (.receive rfl rfl (streamMachine_turn writingAll_open rfl _))
      (List.append_nil _).symm rfl⟩
  have h₁₆ := h₁₅.step (l := Label.feed .tick) ⟨trivial,
    .feed rfl (.tick (streamMachine_turn writingAll_open rfl .tick))
      (show _ = _ ++ [[bookInserted]] from rfl) ⟨_, .send (by decide) (by decide), rfl⟩⟩
  have hserve' : DestinationProcessor.serve pricesStream.rt idAdapter 10 true
      (.processEvents [bookInserted]) = some _ := rfl
  have h₁₇ := h₁₆.step (l := Label.processor .serve) ⟨trivial, .processor trivial
    (.serve (r := .ok ⟨1, 0, some (.postgreSQL "0/10"), []⟩) rfl rfl hserve'
      ⟨.succeeds, trivial, .succeeds, trivial, rfl, rfl⟩)⟩
  have h₁₈ := h₁₇.step (l := Label.source .endRows)
    ⟨trivial, .source trivial (.process rfl (.endRows rfl CdcCoordinator.Loop.noConfusion))⟩
  refine ⟨_, rfl, index_mirrors_source MirroredTable.bookTable booksBridge rfl (by decide)
    MirroredTable.follows_books DestinationProcessor.noDocuments rfl 0 _ h₁₈ ?_ rfl ?_ 0 0
    MirroredTable.asOf_oneBook (Nat.zero_le _)⟩
  · refine ⟨⟨0, rfl⟩, rfl, rfl, rfl, rfl, rfl, List.forall_mem_nil _, ?_⟩
    intro e he _
    rcases List.mem_cons.mp he with rfl | hsecond
    · exact ⟨_, rfl, rfl⟩
    · obtain rfl := List.mem_singleton.mp hsecond
      exact ⟨_, rfl, rfl⟩
  · intro batch hbatch
    obtain rfl := List.mem_singleton.mp (show batch ∈ [[bookInserted]] from hbatch)
    exact Deployment.regroupable_book

end Bridge

end MeiliBridge
