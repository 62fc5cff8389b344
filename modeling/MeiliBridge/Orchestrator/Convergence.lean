import MeiliBridge.Orchestrator.Mirror
import MeiliBridge.Orchestrator.Progress

/-!
# What a deployed task gets done

The task of `MeiliBridge.Orchestrator.Deployment` in an endless run. The processor is scheduled; the
task takes its channel's events and its ticks whenever it can do so again and again, which it can
whenever the processor's channel has room. Then whatever is put in the task's channel is sent and
served (`eventually_delivered`), and once nothing more is put there the index takes its final form
and keeps it (`index_converges`).
-/

set_option autoImplicit false

namespace MeiliBridge

open Interaction Trans Machine

/-! ## The channel of the task -/

namespace CdcCoordinator

theorem Step.putOn_mono {s s' : State} {l : Label} (hs : Step s l s') (name : String) :
    s.putOn name <+: s'.putOn name := by
  have hpush : ∀ (other : String) (ch : TaskChannel) (m : Message),
      s.putOn name <+: (s.push other ch m).putOn name := by
    intro other ch m
    rw [State.putOn_push]
    split
    · exact List.prefix_append _ _
    · exact List.prefix_rfl
  cases hs with
  | @arrive item => cases item <;> exact List.prefix_rfl
  | @trySend m other rest ch => exact hpush other ch m
  | @blockedSend m other rest ch => exact hpush other ch m
  | _ => exact List.prefix_rfl

/-- What is put in a channel stays what it was. -/
theorem Step.puts_mono {s s' : State} {l : Label} (hi : Ordered s) (hs : Step s l s')
    (name : String) : s.puts name <+: s'.puts name := by
  have hsame : s.puts name = (s.putOn name).map s'.eventAt := by
    refine List.map_congr_left fun n hn => ?_
    obtain ⟨⟨n, other⟩, hfiltered, rfl⟩ := List.mem_map.mp hn
    have hlt := hi.delivered_lt n other (List.mem_filter.mp hfiltered).1
    cases hs with
    | @arrive item =>
      cases item with
      | ok event => exact (State.eventAt_arrive hlt).symm
      | error e => rfl
    | _ => rfl
  rw [hsame]
  exact (hs.putOn_mono name).map _

end CdcCoordinator

/-! ## The turns of the task -/

/-- A turn sends one batch or none. -/
theorem StreamTurn.sentOne {params : EventStreamParams} {t t' : StreamState} {arm : Arm}
    (h : StreamTurn params t arm t') : ∃ o : Option (List Event),
      sentBatches t'.world.log = sentBatches t.world.log ++ o.toList := by
  cases h with
  | panics _ _ h =>
    rw [h]
    exact ⟨none, (List.append_nil _).symm⟩
  | waits hsent => exact ⟨none, hsent.trans (List.append_nil _).symm⟩
  | sends hsent => exact ⟨some _, hsent⟩

theorem exists_turn (params : EventStreamParams) {t : StreamState} (hrunning : t.running = true)
    (arm : Arm) : ∃ t', (streamMachine params Choice.ChannelOpen).step t arm t' := by
  obtain ⟨r, w, hr⟩ := exists_runs (h := World.handler) (P := Choice.ChannelOpen)
    ⟨writingAll, writingAll_open⟩
    (PipelineOrchestrator.processEventStreamTurn params t.batch arm) t.world
  exact ⟨_, hrunning, r, w, hr, rfl⟩

/-- A tick leaves nothing in the batch. -/
theorem batch_of_tick {params : EventStreamParams} (hstandard : params.task.atLeastOnce = none)
    {t t' : StreamState} (h : (streamMachine params Choice.ChannelOpen).step t .tick t') :
    t'.batch = [] := by
  obtain ⟨-, r, w, hr, rfl⟩ := h
  have hwp : wp World.handler Choice.ChannelOpen (fun _ => True)
      (PipelineOrchestrator.processPending params.task t.batch)
      (fun r _ => ∀ left, r = .ok left → left = []) t.world := by
    by_cases hnone : t.batch = []
    · rw [PipelineOrchestrator.processPending, if_pos hnone]
      refine ⟨trivial, ?_⟩
      intro left hleft
      cases hleft
      exact hnone
    · rw [PipelineOrchestrator.processPending, if_neg hnone, PipelineOrchestrator.processBatch,
        if_neg hnone, hstandard]
      exact (PipelineOrchestrator.wp_processBatchStandard_sends (fun _ h => h) t.batch t.world).mono
        (fun _ h => h) fun _ _ _ h => h.2
  have hturn : wp World.handler Choice.ChannelOpen (fun _ => True)
      (PipelineOrchestrator.processEventStreamTurn params t.batch .tick)
      (fun r _ => ∀ left goesOn, r = .ok (left, goesOn) → left = []) t.world := by
    refine wp.bind hwp ?_ ?_
    · intro left v _ hleft
      refine ⟨trivial, ?_⟩
      intro left' goesOn heq
      cases heq
      exact hleft left rfl
    · intro fault v _ _ left goesOn heq
      cases heq
  cases r with
  | ok left => exact (wp_iff.mp hturn).2 _ w hr left.1 left.2 rfl
  | error fault => rfl

theorem FeedStep.sentOne {params : EventStreamParams} {table : String}
    (hstandard : params.task.atLeastOnce = none) {f f' : TaskFeed} {l : FeedLabel}
    (h : FeedStep params table f l f') : ∃ o : Option (List Event),
      sentBatches f'.task.world.log = sentBatches f.task.world.log ++ o.toList := by
  cases h with
  | coordinate => exact ⟨none, (List.append_nil _).symm⟩
  | receive _ _ h | tick h | shutdown h =>
    exact (streamMachine_step_cases hstandard (fun _ hopen => hopen) h).sentOne

/-- What the task has received, and what it has sent, only grows. -/
theorem FeedStep.received_mono {params : EventStreamParams} {table : String}
    (hstandard : params.task.atLeastOnce = none) {f f' : TaskFeed} {l : FeedLabel}
    (h : FeedStep params table f l f') : f.task.received <+: f'.task.received := by
  cases h with
  | coordinate => exact List.prefix_rfl
  | receive _ _ h | tick h | shutdown h =>
    rw [(streamMachine_step_cases hstandard (fun _ hopen => hopen) h).received]
    exact List.prefix_append _ _

namespace Deployment

variable {d : Deployment} {initial : Documents} {s s' : State} {l : Label}

/-! ## The processor in an endless run of the whole -/

theorem step_processor (hstandard : d.stream.task.atLeastOnce = none) (hs : d.Step s l s') :
    s'.processor = s.processor ∨ ∃ k,
      DestinationProcessor.Step d.server d.stream.rt d.adapter s.processor k s'.processor := by
  cases hs with
  | feed h hbatches hsends =>
    obtain ⟨o, ho⟩ := h.sentOne hstandard
    rw [ho, List.append_cancel_left_eq] at hbatches
    subst hbatches
    cases o with
    | none => exact .inl hsends
    | some batch =>
      obtain ⟨next, hsend, rfl⟩ := hsends
      exact .inr ⟨_, hsend⟩
  | processor _ h => exact .inr ⟨_, h⟩

/-- The steps that are the processor's own. -/
def Processes : Label → Prop
  | .processor l => DestinationProcessor.OwnStep l
  | .feed _ => False

def Ticks (l : Label) : Prop := l = .feed .tick

def Receives (l : Label) : Prop := l = .feed .receive

variable (d) (initial) in
/-- An endless run. -/
abbrev Run := ((d.machine initial).restrict d.Spares).Run

structure Fair (ρ : Run d initial) : Prop where
  processes : ρ.WeaklyFair Processes
  ticks : ρ.StronglyFair Ticks
  receives : ρ.StronglyFair Receives

/-- Nobody stops the task or the processor, the task's channel is open, and no panic is near. -/
structure Undisturbed (d : Deployment) (s : State) : Prop where
  running : s.feed.task.running = true
  serving : s.processor.phase ≠ .stopped
  channel : s.feed.coordinator.OpenChannel d.table
  spares : d.Spares s (.feed .receive)

/-- The run of the processor alone. -/
def processorRun (hstandard : d.stream.task.atLeastOnce = none) (ρ : Run d initial) :
    (DestinationProcessor.machine d.server d.stream.rt d.adapter initial).Run :=
  ρ.map State.processor (fun _ h => h.2) fun _ _ _ hs => step_processor hstandard hs.2

theorem processes_fair (hstandard : d.stream.task.atLeastOnce = none) {ρ : Run d initial}
    (hfair : Fair ρ) : (processorRun hstandard ρ).WeaklyFair DestinationProcessor.OwnStep := by
  refine hfair.processes.map ?_ ?_
  · rintro s ⟨l, p, hl, hs⟩
    refine ⟨.processor l, ⟨s.feed, p⟩, hl, trivial, .processor ?_ hs⟩
    cases l with
    | connect | serve => trivial
    | send | abort | shutdown => exact absurd hl id
  · intro s l s' hl hs
    cases hs.2 with
    | feed => exact absurd hl id
    | processor _ h => exact ⟨_, hl, h⟩

/-! ## The task in an endless run -/

section Run

variable {ρ : Run d initial} {start : Nat}

/-- Whatever the task does, there is a step of the whole if the processor's channel has room. -/
theorem exists_feed (hstandard : d.stream.task.atLeastOnce = none) {feed : TaskFeed} {l : FeedLabel}
    (hs : FeedStep d.stream d.table s.feed l feed) (hserving : s.processor.phase ≠ .stopped)
    (hroom : s.processor.queue.length < DestinationProcessor.capacity) :
    ∃ s', d.Step s (.feed l) s' := by
  obtain ⟨o, ho⟩ := hs.sentOne hstandard
  cases o with
  | none => exact ⟨_, .feed hs ho rfl⟩
  | some batch => exact ⟨_, .feed hs ho ⟨_, .send hserving hroom, rfl⟩⟩

theorem often_room (hstandard : d.stream.task.atLeastOnce = none) (hfair : Fair ρ)
    (hgoes : ∀ n, start ≤ n → Undisturbed d (ρ.state n)) :
    ρ.Often fun s => s.processor.queue.length < DestinationProcessor.capacity := by
  intro n
  obtain ⟨m, hm, hroom⟩ := DestinationProcessor.often_room (n := max start n)
    (processes_fair hstandard hfair)
    fun m hm => (hgoes m (Nat.le_trans (Nat.le_max_left _ _) hm)).serving
  exact ⟨m, Nat.le_trans (Nat.le_max_right _ _) hm, hroom⟩

/-- The task ticks again and again. -/
theorem often_ticks (hstandard : d.stream.task.atLeastOnce = none) (hfair : Fair ρ)
    (hgoes : ∀ n, start ≤ n → Undisturbed d (ρ.state n)) (n : Nat) :
    ∃ m, n ≤ m ∧ ρ.Takes Ticks m := by
  refine hfair.ticks (fun k => ?_) n
  obtain ⟨m, hm, hroom⟩ := often_room hstandard hfair hgoes (max start k)
  have hundisturbed := hgoes m (Nat.le_trans (Nat.le_max_left _ _) hm)
  obtain ⟨task, htask⟩ := exists_turn d.stream hundisturbed.running .tick
  obtain ⟨s', hs'⟩ := exists_feed hstandard (.tick htask) hundisturbed.serving hroom
  exact ⟨m, Nat.le_trans (Nat.le_max_right _ _) hm, _, s', rfl, trivial, hs'⟩

theorem feedInv (hstandard : d.stream.task.atLeastOnce = none) (hsize : 1 ≤ d.stream.batchSize)
    (ρ : Run d initial) (n : Nat) : FeedInv d.stream d.table (ρ.state n).feed :=
  reachable_feedInv hstandard hsize (reachable_feed (ρ.reachable n))

theorem ordered (ρ : Run d initial) (n : Nat) :
    CdcCoordinator.Ordered (ρ.state n).feed.coordinator :=
  feed_ordered (reachable_feed (ρ.reachable n)).of_restrict

/-- All that was put in the channel is received, as long as it is open. -/
theorem received_append_queue (hstandard : d.stream.task.atLeastOnce = none)
    (hsize : 1 ≤ d.stream.batchSize) (ρ : Run d initial) {n : Nat}
    (hopen : (ρ.state n).feed.coordinator.OpenChannel d.table) :
    ((ρ.state n).feed.task.received ++
      ((ρ.state n).feed.coordinator.queueOf d.table).map CdcCoordinator.Message.event).map some =
      (ρ.state n).feed.coordinator.puts d.table :=
  (feedInv hstandard hsize ρ n).fifo.whole hopen

theorem puts_mono {n m : Nat} (hnm : n ≤ m) : (ρ.state n).feed.coordinator.puts d.table <+:
    (ρ.state m).feed.coordinator.puts d.table := by
  refine Run.lasts (i := n) (P := fun s : State =>
    (ρ.state n).feed.coordinator.puts d.table <+: s.feed.coordinator.puts d.table) ?_
    (Nat.le_refl n) hnm List.prefix_rfl
  intro i _ hi
  rcases ρ.next i with hsame | ⟨l, -, hs⟩
  · rw [hsame]
    exact hi
  · refine hi.trans ?_
    generalize ρ.state (i + 1) = s' at hs
    cases hs with
    | feed h =>
      cases h with
      | coordinate _ _ h => exact h.puts_mono (ordered ρ i) d.table
      | receive | tick | shutdown => exact List.prefix_rfl
    | processor => exact List.prefix_rfl

theorem received_mono (hstandard : d.stream.task.atLeastOnce = none) {n m : Nat} (hnm : n ≤ m) :
    (ρ.state n).feed.task.received <+: (ρ.state m).feed.task.received := by
  refine Run.lasts (i := n) (P := fun s : State =>
    (ρ.state n).feed.task.received <+: s.feed.task.received) ?_ (Nat.le_refl n) hnm List.prefix_rfl
  intro i _ hi
  rcases ρ.next i with hsame | ⟨l, -, hs⟩
  · rw [hsame]
    exact hi
  · refine hi.trans ?_
    generalize ρ.state (i + 1) = s' at hs
    cases hs with
    | feed h => exact h.received_mono hstandard
    | processor => exact List.prefix_rfl

/-- What waits in the channel is received. -/
theorem receives_next (hstandard : d.stream.task.atLeastOnce = none)
    (hsize : 1 ≤ d.stream.batchSize) (hfair : Fair ρ)
    (hgoes : ∀ n, start ≤ n → Undisturbed d (ρ.state n)) {n k : Nat} (hstart : start ≤ n)
    (hwaits : (ρ.state n).feed.task.received.length < k)
    (hput : k ≤ ((ρ.state n).feed.coordinator.puts d.table).length) :
    ∃ m, n ≤ m ∧
      (ρ.state n).feed.task.received.length < (ρ.state m).feed.task.received.length := by
  refine hfair.receives.leadsTo (i := n)
    (P := fun s => s.feed.task.received.length = (ρ.state n).feed.task.received.length)
    (Q := fun s => (ρ.state n).feed.task.received.length < s.feed.task.received.length)
    (often_room hstandard hfair hgoes) ?_ ?_ ?_ (Nat.le_refl n) rfl
  · -- the next message is there
    intro m hnm hsame hroom
    have hundisturbed := hgoes m (Nat.le_trans hstart hnm)
    obtain ⟨ch, hch, -⟩ := id hundisturbed.channel
    have hall := congrArg List.length
      (received_append_queue hstandard hsize ρ hundisturbed.channel)
    have hputs := (puts_mono (ρ := ρ) hnm).length_le
    rw [List.length_map, List.length_append, List.length_map,
      CdcCoordinator.State.queueOf_some hch] at hall
    obtain ⟨message, rest, hqueue⟩ : ∃ message rest, ch.queue = message :: rest := by
      refine List.exists_cons_of_length_pos ?_
      omega
    obtain ⟨task, htask⟩ :=
      exists_turn d.stream hundisturbed.running (.event (.ok message.event))
    obtain ⟨s', hs'⟩ :=
      exists_feed hstandard (.receive hch hqueue htask) hundisturbed.serving hroom
    exact ⟨_, s', rfl, hundisturbed.spares, hs'⟩
  · intro m _ hsame
    have hle := (received_mono (ρ := ρ) hstandard (Nat.le_succ m)).length_le
    rcases Nat.lt_or_eq_of_le hle with hlt | heq
    · exact .inr (hsame ▸ hlt)
    · exact .inl (heq ▸ hsame)
  · rintro m _ hsame ⟨l, rfl, -, hs⟩
    generalize ρ.state (m + 1) = s' at hs
    cases hs with
    | feed h =>
      cases h with
      | receive _ _ h =>
        have hreceived := (streamMachine_step_cases hstandard (fun _ hopen => hopen) h).received
        show _ < List.length _
        rw [hreceived, ← hsame, List.length_append]
        exact Nat.lt_succ_self _

/-- All that was put in the channel by some time has been received by a later one. -/
theorem receives_all (hstandard : d.stream.task.atLeastOnce = none)
    (hsize : 1 ≤ d.stream.batchSize) (hfair : Fair ρ)
    (hgoes : ∀ n, start ≤ n → Undisturbed d (ρ.state n)) {n : Nat} (hstart : start ≤ n) :
    ∃ m, n ≤ m ∧ (ρ.state n).feed.coordinator.puts d.table <+:
      (ρ.state m).feed.task.received.map some := by
  obtain ⟨m, hnm, hlength⟩ := Run.reaches (i := n) (ρ := ρ)
    (f := fun s : State => s.feed.task.received.length)
    (k := ((ρ.state n).feed.coordinator.puts d.table).length)
    (fun i hi hless => receives_next hstandard hsize hfair hgoes (Nat.le_trans hstart hi) hless
      (puts_mono hi).length_le) (Nat.le_refl n)
  refine ⟨m, hnm, ?_⟩
  refine List.prefix_of_prefix_length_le (puts_mono hnm)
    (feedInv hstandard hsize ρ m).fifo.received ?_
  rw [List.length_map]
  exact hlength

/-- A tick leaves nothing in the batch. -/
theorem batch_of_ticks (hstandard : d.stream.task.atLeastOnce = none) {n : Nat}
    (h : ρ.Takes Ticks n) : (ρ.state (n + 1)).feed.task.batch = [] := by
  obtain ⟨l, rfl, -, hs⟩ := h
  generalize ρ.state (n + 1) = s' at hs
  cases hs with
  | feed h =>
    cases h with
    | tick h => exact batch_of_tick hstandard h

theorem batches_mono (hstandard : d.stream.task.atLeastOnce = none) {n m : Nat} (hnm : n ≤ m) :
    (ρ.state n).batches <+: (ρ.state m).batches := by
  refine Run.lasts (i := n) (P := fun s : State => (ρ.state n).batches <+: s.batches) ?_
    (Nat.le_refl n) hnm List.prefix_rfl
  intro i _ hi
  rcases ρ.next i with hsame | ⟨l, -, hs⟩
  · rw [hsame]
    exact hi
  · refine hi.trans ?_
    generalize ρ.state (i + 1) = s' at hs
    cases hs with
    | feed h => exact feedStep_sent_prefix hstandard h
    | processor => exact List.prefix_rfl

/-- Each batch of the task was sent to the processor, in this order. -/
theorem batches_sublist_sent (h : (d.machine initial).Reachable s) :
    (s.batches.map DestinationCommand.processEvents).Sublist s.processor.sent := by
  induction h with
  | init h =>
    rw [State.batches, h.1.log]
    exact List.nil_sublist _
  | step _ hs ih =>
    cases hs with
    | feed _ hbatches hsends =>
      unfold State.batches at ih ⊢
      rw [hsends.sent, hbatches, List.map_append]
      exact ih.append (List.Sublist.refl _)
    | processor _ h =>
      rcases sent_of_step h with hsame | ⟨command, -, hmore⟩
      · rw [hsame]
        exact ih
      · rw [hmore]
        exact ih.trans (List.sublist_append_left _ _)

/-- What was put in the channel of the task. -/
def State.put (d : Deployment) (s : State) : List Event :=
  s.feed.task.received ++ (s.feed.coordinator.queueOf d.table).map CdcCoordinator.Message.event

/-- Of what was put in the channel by some time, all that the stages make has been sent by a later
one. -/
theorem sends_all (hstandard : d.stream.task.atLeastOnce = none) (hsize : 1 ≤ d.stream.batchSize)
    (hfair : Fair ρ) (hgoes : ∀ n, start ≤ n → Undisturbed d (ρ.state n)) {n : Nat}
    (hstart : start ≤ n) : ∃ m, n ≤ m ∧ (ρ.state n).put d <+: (ρ.state m).feed.task.received ∧
      (ρ.state m).feed.task.batch = [] := by
  obtain ⟨m, hnm, hreceived⟩ := receives_all hstandard hsize hfair hgoes hstart
  obtain ⟨m', hm', hticks⟩ := often_ticks hstandard hfair hgoes m
  refine ⟨m' + 1, by omega, ?_, batch_of_ticks hstandard hticks⟩
  rw [← received_append_queue hstandard hsize ρ (hgoes n hstart).channel] at hreceived
  have hsome : Function.Injective (some : Event → Option Event) := fun _ _ => Option.some.inj
  have hput := (List.prefix_map_iff_of_injective hsome).mp hreceived
  exact hput.trans (received_mono hstandard (by omega))

/-- From some time on nothing more is put in the task's channel. -/
def Quiet (ρ : Run d initial) (start : Nat) (events : List Event) : Prop :=
  ∀ n, start ≤ n → (ρ.state n).put d = events

/-- Then the task has received everything at some time, and its batches are all sent. -/
theorem rests (hstandard : d.stream.task.atLeastOnce = none) (hsize : 1 ≤ d.stream.batchSize)
    (hfair : Fair ρ) (hgoes : ∀ n, start ≤ n → Undisturbed d (ρ.state n)) {events : List Event}
    (hquiet : Quiet ρ start events) : ∃ m, start ≤ m ∧ ∀ n, m ≤ n →
      (ρ.state n).feed.task.received = events ∧ (ρ.state n).feed.task.batch = [] ∧
        (ρ.state n).batches = (ρ.state m).batches := by
  obtain ⟨m, hm, hput, hbatch⟩ := sends_all hstandard hsize hfair hgoes (Nat.le_refl start)
  rw [hquiet start (Nat.le_refl start)] at hput
  have hreceived : ∀ n, m ≤ n → (ρ.state n).feed.task.received = events := by
    intro n hmn
    have hall : (ρ.state n).feed.task.received <+: events :=
      ⟨_, hquiet n (Nat.le_trans hm hmn)⟩
    exact hall.eq_of_length_le (hput.trans (received_mono hstandard hmn)).length_le
  refine ⟨m, hm, fun n hmn => ?_⟩
  have hsent := sent_append_batch hstandard hsize (ρ.reachable n)
  have hbefore := sent_append_batch hstandard hsize (ρ.reachable m)
  obtain ⟨more, hmore⟩ := batches_mono (ρ := ρ) hstandard hmn
  rw [hreceived m (Nat.le_refl m), hbatch, List.append_nil] at hbefore
  rw [hreceived n hmn, ← hbefore, ← hmore, List.flatten_append, List.append_assoc,
    List.append_right_eq_self] at hsent
  obtain ⟨hnone, hempty⟩ := List.append_eq_nil_iff.mp hsent
  refine ⟨hreceived n hmn, hempty, ?_⟩
  -- no batch is empty
  cases more with
  | nil => rw [← hmore, List.append_nil]
  | cons batch rest =>
    have hmem : batch ∈ (ρ.state n).batches :=
      hmore ▸ List.mem_append_right _ List.mem_cons_self
    have hpos := ((feedInv hstandard hsize ρ n).sends.sizes batch hmem).1
    rw [List.flatten_cons, List.append_eq_nil_iff] at hnone
    rw [hnone.1] at hpos
    exact absurd hpos (Nat.lt_irrefl 0)

/-- From some time on nothing is left to do. -/
theorem settles (hstandard : d.stream.task.atLeastOnce = none) (hsize : 1 ≤ d.stream.batchSize)
    (hfair : Fair ρ) (hgoes : ∀ n, start ≤ n → Undisturbed d (ρ.state n)) {events : List Event}
    (hquiet : Quiet ρ start events)
    (hreported : ∀ n, start ≤ n → ∀ e ∈ (ρ.state n).processor.served,
      d.WritesIndex e.command → e.Reported) :
    ∃ m, start ≤ m ∧ ∀ n, m ≤ n →
      (ρ.state n).feed.task.received = events ∧ d.Settled (ρ.state n) := by
  obtain ⟨k, hk, hrests⟩ := rests hstandard hsize hfair hgoes hquiet
  obtain ⟨m, hkm, hserved⟩ := DestinationProcessor.serves_all (processes_fair hstandard hfair)
    (n := k) fun m hm => (hgoes m (by omega)).serving
  refine ⟨m, by omega, fun n hmn => ?_⟩
  obtain ⟨hreceived, hbatch, hbatches⟩ := hrests n (by omega)
  refine ⟨hreceived, hbatch, ?_, hreported n (by omega)⟩
  have horder := (DestinationProcessor.reachable_servesInOrder
    ((d.fronts initial).reachable (ρ.reachable n).of_restrict)).order
  have hmore : (ρ.state k).processor.sent <+:
      (ρ.state n).processor.served.map DestinationProcessor.Served.command :=
    hserved.trans ((DestinationProcessor.served_prefix_of_le
      (ρ := processorRun hstandard ρ) hmn).map _)
  have hsame := (d.fronts initial).sent (ρ.reachable n).of_restrict
  rw [hbatches, ← (d.fronts initial).sent (ρ.reachable k).of_restrict, ← horder,
    List.filter_append] at hsame
  have hlength := (hmore.filter d.WritesIndex).length_le
  rw [← hsame, List.length_append] at hlength
  have hnone : (ρ.state n).processor.queue.filter d.WritesIndex = [] :=
    List.eq_nil_of_length_eq_zero (by omega)
  intro command hcommand hwrites
  exact List.filter_eq_nil_iff.mp hnone command hcommand (decide_eq_true hwrites)

end Run

/-! ### The first book, and rest -/

/-- The new book is in the index, and nothing is left to do. -/
def bookRests (w : Documents) : State := ⟨bookSent, bookServed w⟩

theorem bookSent_undisturbed {processor : DestinationProcessor.State}
    (hserving : processor.phase ≠ .stopped) : Undisturbed booksDeployed ⟨bookSent, processor⟩ where
  running := rfl
  serving := hserving
  channel := ⟨⟨[], true⟩, rfl, rfl⟩
  spares := by
    intro ch m rest hch hqueue
    obtain rfl : (⟨[], true⟩ : CdcCoordinator.TaskChannel) = ch := Option.some.inj hch
    cases hqueue

theorem bookRests_ticks (w : Documents) :
    booksDeployed.Step (bookRests w) (.feed .tick) (bookRests w) := by
  have htick : FeedStep pricesStream "books" bookSent .tick bookSent :=
    .tick ⟨rfl, .ok ([], true), _, ⟨rfl, rfl⟩, rfl⟩
  exact .feed htick (List.append_nil _).symm rfl

theorem fair_of_rest {w : Documents} {ρ : Run booksDeployed w} {n : Nat}
    (hrest : ∀ m, n ≤ m → ρ.state m = bookRests w) : Fair ρ where
  processes := by
    refine Run.weaklyFair_of_rest hrest ?_
    rintro ⟨l, s', hl, -, hs⟩
    generalize hstate : bookRests w = s at hs
    cases hs with
    | feed => exact hl
    | processor _ h =>
      subst hstate
      cases h with
      | connect h => cases h
      | serve _ hqueue | shutdownCommand _ hqueue => cases hqueue
      | send | abort | shutdown => exact hl
  ticks := Run.stronglyFair_of_rest hrest fun _ => ⟨_, rfl, trivial, bookRests_ticks w⟩
  receives := by
    refine Run.stronglyFair_of_rest hrest ?_
    rintro ⟨l, s', rfl, -, hs⟩
    generalize hstate : bookRests w = s at hs
    cases hs with
    | feed h =>
      subst hstate
      cases h with
      | receive hch hqueue =>
        obtain rfl := Option.some.inj hch
        cases hqueue

/-- The batch is in the channel at this time, and the run rests once it is served. -/
structure Serves {w : Documents} (ρ : Run booksDeployed w) (n : Nat) : Prop where
  queued : ρ.state n = ⟨bookSent, bookQueued w⟩
  rests : ∀ m, n + 1 ≤ m → ρ.state m = bookRests w

theorem exists_serves (w : Documents) : ∃ (ρ : Run booksDeployed w) (n : Nat), Serves ρ n := by
  obtain ⟨ρ₀, n, hqueued⟩ := Run.exists_rest (reachable_bookQueued w)
  obtain ⟨ρ, hbefore, hrests⟩ := Run.exists_step_rest hqueued (bookQueued_serve w)
  exact ⟨ρ, n, (hbefore n (Nat.le_refl n)).trans (hqueued n (Nat.le_refl n)), hrests⟩

section Serves

variable {w : Documents} {ρ : Run booksDeployed w} {n m : Nat}

theorem Serves.state_eq (h : Serves ρ n) (hm : n ≤ m) :
    ρ.state m = ⟨bookSent, bookQueued w⟩ ∨ ρ.state m = ⟨bookSent, bookServed w⟩ := by
  rcases Nat.eq_or_lt_of_le hm with rfl | hlt
  · exact .inl h.queued
  · exact .inr (h.rests m hlt)

theorem Serves.undisturbed (h : Serves ρ n) (hm : n ≤ m) :
    Undisturbed booksDeployed (ρ.state m) := by
  rcases h.state_eq hm with hs | hs <;> rw [hs] <;> exact bookSent_undisturbed nofun

theorem Serves.reported (h : Serves ρ n) (hm : n ≤ m) : ∀ e ∈ (ρ.state m).processor.served,
    booksDeployed.WritesIndex e.command → e.Reported := by
  rcases h.state_eq hm with hs | hs
  · rw [hs]
    exact fun e he => absurd he List.not_mem_nil
  · rw [hs]
    exact (settled_bookServed w).reported

end Serves

/-- **The index takes its final form and keeps it**, once nothing more is put in the task's channel:
it is what the stages make of all that was put there. -/
theorem index_converges (d : Deployment) (hstandard : d.stream.task.atLeastOnce = none)
    (hsize : 1 ≤ d.stream.batchSize) (initial : Documents) (ρ : Run d initial) (hfair : Fair ρ)
    (start : Nat) (hgoes : ∀ n, start ≤ n → Undisturbed d (ρ.state n)) (events : List Event)
    (hquiet : Quiet ρ start events) (hfits : ∀ n, start ≤ n → d.Fits (ρ.state n))
    (hreported : ∀ n, start ≤ n → ∀ e ∈ (ρ.state n).processor.served,
      d.WritesIndex e.command → e.Reported) :
    ∃ m, ∀ n, m ≤ n → (ρ.state n).processor.documents d.indexName = KeyedLog.run
      (d.operations (d.stream.stages.outputs d.stream.rt events)) (initial d.indexName) := by
  obtain ⟨m, hm, hsettles⟩ := settles hstandard hsize hfair hgoes hquiet hreported
  refine ⟨m, fun n hmn => ?_⟩
  obtain ⟨hreceived, hsettled⟩ := hsettles n hmn
  rw [hsettled.index_eq hstandard hsize (ρ.reachable n) (hfits n (by omega)), hreceived]

theorem index_converges_book :
    ∃ ρ : Run booksDeployed DestinationProcessor.noDocuments, ∃ m, ∀ n, m ≤ n →
      (ρ.state n).processor.documents "books" = KeyedLog.run
        (booksDeployed.operations (pricesStream.stages.outputs pricesStream.rt [bookInserted]))
        (fun _ => none) := by
  obtain ⟨ρ, n, h⟩ := exists_serves DestinationProcessor.noDocuments
  refine ⟨ρ, index_converges booksDeployed rfl (by decide) DestinationProcessor.noDocuments ρ
    (fair_of_rest h.rests) n (fun _ => h.undisturbed) [bookInserted] ?_ ?_ (fun _ => h.reported)⟩
  · intro m hm
    rcases h.state_eq hm with hs | hs <;> rw [hs] <;> rfl
  · intro m hm
    rcases h.state_eq hm with hs | hs <;> rw [hs] <;> exact fits_bookSent

end Deployment

/-! ## The table and its index -/

namespace MirroredTable

open Deployment

/-- **The index becomes the table, and stays it**, whatever earlier runs have left in it: if the run
starts no later than at the last change that was reported and nothing disturbs it from some time on,
then once the table has come to rest its index does too. -/
theorem index_becomes_table (t : MirroredTable) (d : Deployment)
    (hstandard : d.stream.task.atLeastOnce = none) (hsize : 1 ≤ d.stream.batchSize)
    (hfollows : t.Follows d) (lo hi : Nat) (w : Documents) (h : t.Recovered d lo hi w)
    (ρ : Deployment.Run d w) (hfair : Fair ρ) (start since : Nat) (hstart : start ≤ lo)
    (hhi : hi ≤ t.changes.length) (hgoes : ∀ n, since ≤ n → Undisturbed d (ρ.state n))
    (hquiet : Quiet ρ since ((t.changes.drop start).map t.event))
    (hregroupable : ∀ n, since ≤ n → ∀ batch ∈ (ρ.state n).batches,
      KeyedLog.Regroupable (d.operations batch))
    (hreported : ∀ n, since ≤ n → ∀ e ∈ (ρ.state n).processor.served,
      d.WritesIndex e.command → e.Reported) :
    ∃ m, ∀ n, m ≤ n → (ρ.state n).processor.documents d.indexName =
      fun k => (t.rows t.changes.length k).map t.image := by
  obtain ⟨m, hm, hsettles⟩ := settles hstandard hsize hfair hgoes hquiet hreported
  have hasOf := h.asOf hstandard hsize hfollows
  refine ⟨m, fun n hmn => ?_⟩
  have hsince : since ≤ n := Nat.le_trans hm hmn
  obtain ⟨hreceived, hsettled⟩ := hsettles n hmn
  have hreads : t.Reads d w start (ρ.state n) := by
    refine ⟨ρ.reachable n, ?_, hregroupable n hsince⟩
    have hput : (((ρ.state n).put d).map some) = (ρ.state n).feed.coordinator.puts d.table :=
      received_append_queue hstandard hsize ρ (hgoes n hsince).channel
    rw [← hput, hquiet n hsince, List.map_map]
  -- some key stands at a time from `lo` to `hi`
  obtain ⟨i, hlo, hi', -⟩ := hasOf ""
  have hstop : stop start (ρ.state n) = t.changes.length := by
    rw [stop, hreceived, List.length_map, List.length_drop]
    omega
  rw [hreads.caughtUp hstandard hsize hfollows hasOf hstart (hstop ▸ hhi) hsettled, hstop]

theorem index_becomes_table_books :
    ∃ ρ : Deployment.Run booksDeployed DestinationProcessor.oneBook, ∃ m, ∀ n, m ≤ n →
      (ρ.state n).processor.documents "books" = fun k => (bookTable.rows 1 k).map Value.object := by
  obtain ⟨ρ, n, h⟩ := exists_serves DestinationProcessor.oneBook
  refine ⟨ρ, index_becomes_table bookTable booksDeployed rfl (by decide) follows_books 0 0 _
    (.start asOf_oneBook) ρ (fair_of_rest h.rests) 0 n (Nat.le_refl 0) (Nat.zero_le _)
    (fun _ => h.undisturbed) ?_ ?_ (fun _ => h.reported)⟩
  · intro m hm
    rcases h.state_eq hm with hs | hs <;> rw [hs] <;> rfl
  · intro m hm
    rcases h.state_eq hm with hs | hs <;> rw [hs] <;>
      exact (reads_books DestinationProcessor.oneBook).regroupable

end MirroredTable

end MeiliBridge
