import MeiliBridge.Orchestrator.DestinationProcessor
import MeiliBridge.Orchestrator.SequentialDelivery

/-!
# One task from its channel to its index

The coordinator and the loop of a task without at-least-once delivery, as in `feedMachine`, together
with the destination processor and everybody else who sends it commands. A batch of the task gets
into the processor's queue in the turn that sends it, and is served some time later; once the
processor has stopped nothing can be sent to it, and the index stays as it is.

`index_follows_stream` is what comes of it in the end: when the task has nothing in hand and the
processor has reported all of its batches, the index has changed by what the stages make of the
events that were received, in their order.
-/

set_option autoImplicit false

namespace MeiliBridge

open Trans

structure Deployment where
  stream : EventStreamParams
  /-- the name of the task's channel -/
  table : String
  server : SearchServer
  adapter : MeilisearchAdapter
  /-- the index of the task -/
  indexName : String

namespace Deployment

open DestinationProcessor (Writes)

structure State where
  feed : TaskFeed
  processor : DestinationProcessor.State

inductive Label where
  | feed (l : FeedLabel)
  | processor (l : DestinationProcessor.Label)

variable (d : Deployment)

/-- A command that changes the task's index. -/
def WritesIndex (command : DestinationCommand) : Prop :=
  Writes d.stream.rt d.adapter d.indexName command

instance (command : DestinationCommand) : Decidable (d.WritesIndex command) := by
  cases command with
  | processEvents events =>
    exact inferInstanceAs (Decidable (∃ e ∈ events, _ = _))
  | importData index documents pk => exact inferInstanceAs (Decidable (index = d.indexName))
  | ensureIndex | healthCheck | shutdown => exact inferInstanceAs (Decidable False)

/-- The commands are sent one after another. -/
def Sends : DestinationProcessor.State → List DestinationCommand → DestinationProcessor.State → Prop
  | p, [], p' => p' = p
  | p, command :: rest, p' => ∃ next,
      DestinationProcessor.Step d.server d.stream.rt d.adapter p (.send command) next ∧
        Sends next rest p'

/-- What the others send does not change the task's index. -/
def FromOthers : DestinationProcessor.Label → Prop
  | .send command => ¬ d.WritesIndex command
  | _ => True

inductive Step : State → Label → State → Prop
  | feed {s : State} {l : FeedLabel} {feed : TaskFeed} {batches : List (List Event)}
      {processor : DestinationProcessor.State} (h : FeedStep d.stream d.table s.feed l feed)
      (hbatches : sentBatches feed.task.world.log = sentBatches s.feed.task.world.log ++ batches)
      (hsends : d.Sends s.processor (batches.map .processEvents) processor) :
      Step s (.feed l) ⟨feed, processor⟩
  | processor {s : State} {l : DestinationProcessor.Label}
      {processor : DestinationProcessor.State} (hothers : d.FromOthers l)
      (h : DestinationProcessor.Step d.server d.stream.rt d.adapter s.processor l processor) :
      Step s (.processor l) ⟨s.feed, processor⟩

/-- Everything is started on these documents. -/
def machine (initial : Documents) : Machine State Label where
  init s := FeedStarts d.stream s.feed ∧ s.processor = ⟨.connecting, [], initial, [], []⟩
  step := d.Step

/-- No panic of the transformer costs the task its batch. -/
def Spares (s : State) : Label → Prop
  | .feed l => SparesBatch d.stream d.table s.feed l
  | .processor _ => True

/-- The batches that the task has sent. -/
def State.batches (s : State) : List (List Event) := sentBatches s.feed.task.world.log

variable {d} {initial : Documents} {s s' : State}

/-! ## The parts and the wire between them -/

theorem Sends.reachable {p p' : DestinationProcessor.State} {commands : List DestinationCommand}
    (hp : (DestinationProcessor.machine d.server d.stream.rt d.adapter initial).Reachable p)
    (h : d.Sends p commands p') :
    (DestinationProcessor.machine d.server d.stream.rt d.adapter initial).Reachable p' := by
  induction commands generalizing p with
  | nil =>
    obtain rfl := h
    exact hp
  | cons command rest ih =>
    obtain ⟨next, hstep, hrest⟩ := h
    exact ih (hp.step hstep) hrest

theorem Sends.sent {p p' : DestinationProcessor.State} {commands : List DestinationCommand}
    (h : d.Sends p commands p') : p'.sent = p.sent ++ commands := by
  induction commands generalizing p with
  | nil =>
    obtain rfl := h
    exact (List.append_nil _).symm
  | cons command rest ih =>
    obtain ⟨next, hstep, hrest⟩ := h
    cases hstep
    rw [ih hrest, List.append_assoc]
    rfl

/-- What a step of the processor lets in. -/
theorem sent_of_step {p p' : DestinationProcessor.State} {l : DestinationProcessor.Label}
    (h : DestinationProcessor.Step d.server d.stream.rt d.adapter p l p') :
    p'.sent = p.sent ∨ ∃ command, l = .send command ∧ p'.sent = p.sent ++ [command] := by
  cases h with
  | send => exact .inr ⟨_, rfl, rfl⟩
  | connect | serve | shutdownCommand | abort | shutdown => exact .inl rfl

theorem reachable_feed (h : ((d.machine initial).restrict d.Spares).Reachable s) :
    ((feedMachine d.stream d.table).restrict (SparesBatch d.stream d.table)).Reachable s.feed := by
  induction h with
  | init h => exact .init h.1
  | step _ hs ih =>
    obtain ⟨hspares, hs⟩ := hs
    cases hs with
    | feed h => exact ih.step ⟨hspares, h⟩
    | processor => exact ih

/-- How a processor gets the batches of a task, among the commands of the others. -/
inductive Wire (d : Deployment) (p : DestinationProcessor.State) (batches : List (List Event))
    (p' : DestinationProcessor.State) (batches' : List (List Event)) : Prop
  | sends {more : List (List Event)} (hbatches : batches' = batches ++ more)
      (hsends : d.Sends p (more.map .processEvents) p')
  | others {l : DestinationProcessor.Label} (hbatches : batches' = batches)
      (hothers : d.FromOthers l)
      (h : DestinationProcessor.Step d.server d.stream.rt d.adapter p l p')

/-- A system in front of the processor, whose batches are the task's. -/
structure Fronts {σ ℓ : Type} (d : Deployment) (initial : Documents) (m : Machine σ ℓ)
    (processor : σ → DestinationProcessor.State) (batches : σ → List (List Event)) : Prop where
  init : ∀ s, m.init s →
    processor s = ⟨.connecting, [], initial, [], []⟩ ∧ batches s = []
  step : ∀ s l s', m.step s l s' → d.Wire (processor s) (batches s) (processor s') (batches s')

section Fronts

variable {σ ℓ : Type} {m : Machine σ ℓ} {processor : σ → DestinationProcessor.State}
  {batches : σ → List (List Event)} {s : σ}

theorem Fronts.reachable (hm : d.Fronts initial m processor batches) (h : m.Reachable s) :
    (DestinationProcessor.machine d.server d.stream.rt d.adapter initial).Reachable
      (processor s) := by
  induction h with
  | init h => exact .init (hm.init _ h).1
  | step _ hs ih =>
    cases hm.step _ _ _ hs with
    | sends _ hsends => exact hsends.reachable ih
    | others _ _ h => exact ih.step h

/-- **The commands that change the index are the batches of the task**, in their order. -/
theorem Fronts.sent (hm : d.Fronts initial m processor batches) (h : m.Reachable s) :
    (processor s).sent.filter d.WritesIndex =
      ((batches s).map .processEvents).filter d.WritesIndex := by
  induction h with
  | init h =>
    obtain ⟨hprocessor, hbatches⟩ := hm.init _ h
    rw [hprocessor, hbatches]
    rfl
  | step _ hs ih =>
    cases hm.step _ _ _ hs with
    | sends hbatches hsends =>
      rw [hsends.sent, hbatches, List.map_append, List.filter_append, List.filter_append, ih]
    | others hbatches hothers h =>
      rw [hbatches, ← ih]
      rcases sent_of_step h with hsame | ⟨command, rfl, hmore⟩
      · rw [hsame]
      · have hno : ¬ d.WritesIndex command := hothers
        rw [hmore, List.filter_append]
        simp [hno]

end Fronts

theorem fronts (d : Deployment) (initial : Documents) :
    d.Fronts initial (d.machine initial) State.processor State.batches where
  init s h := by
    refine ⟨h.2, ?_⟩
    rw [State.batches, h.1.log]
    rfl
  step s l s' hs := by
    cases hs with
    | feed _ hbatches hsends => exact .sends hbatches hsends
    | processor hothers h => exact .others rfl hothers h

/-! ## The batches that were served -/

/-- The operations of events on the task's index. -/
def operations (d : Deployment) (events : List Event) : List (KeyedLog.Op String Value) :=
  d.server.operations d.adapter d.indexName events

/-- What is sent is for the task's index, and no batch writes a document again that it deletes. -/
structure Fits (d : Deployment) (s : State) : Prop where
  routed : ∀ e ∈ d.stream.stages.outputs d.stream.rt s.feed.task.received,
    d.adapter.indexName d.stream.rt e = some d.indexName
  regroupable : ∀ batch ∈ s.batches, KeyedLog.Regroupable (d.operations batch)

theorem sent_append_batch (hstandard : d.stream.task.atLeastOnce = none)
    (hsize : 1 ≤ d.stream.batchSize) (h : ((d.machine initial).restrict d.Spares).Reachable s) :
    s.batches.flatten ++ s.feed.task.batch =
      d.stream.stages.outputs d.stream.rt s.feed.task.received :=
  (reachable_feedInv hstandard hsize (reachable_feed h)).sends.sent

/-- A batch of the task is served as its own operations, all puts first. -/
theorem operations_processEvents {batch : List Event}
    (hrouted : ∀ e ∈ batch, d.adapter.indexName d.stream.rt e = some d.indexName) :
    DestinationProcessor.operations d.server d.stream.rt d.adapter d.indexName
      (.processEvents batch) = KeyedLog.regroup (d.operations batch) := by
  have hall : d.adapter.eventsOf d.stream.rt d.indexName batch = batch :=
    List.filter_eq_self.mpr fun e he => decide_eq_true (hrouted e he)
  rw [DestinationProcessor.operations, hall]
  rfl

theorem flatMap_filter_writes (commands : List DestinationCommand) :
    (commands.filter d.WritesIndex).flatMap
        (DestinationProcessor.operations d.server d.stream.rt d.adapter d.indexName) =
      commands.flatMap
        (DestinationProcessor.operations d.server d.stream.rt d.adapter d.indexName) := by
  induction commands with
  | nil => rfl
  | cons command rest ih =>
    by_cases hwrites : d.WritesIndex command
    · rw [List.filter_cons_of_pos (by simpa using hwrites), List.flatMap_cons, List.flatMap_cons,
        ih]
    · rw [List.filter_cons_of_neg (by simpa using hwrites), List.flatMap_cons,
        DestinationProcessor.operations_of_not_writes hwrites, ih]
      rfl

/-- The operations of the batches, all puts of each batch first. -/
theorem flatMap_batches {batches : List (List Event)}
    (hrouted : ∀ batch ∈ batches, ∀ e ∈ batch,
      d.adapter.indexName d.stream.rt e = some d.indexName) :
    (batches.map .processEvents).flatMap
        (DestinationProcessor.operations d.server d.stream.rt d.adapter d.indexName) =
      (batches.map d.operations).flatMap KeyedLog.regroup := by
  induction batches with
  | nil => rfl
  | cons batch rest ih =>
    rw [List.map_cons, List.flatMap_cons, List.map_cons, List.flatMap_cons,
      operations_processEvents (hrouted batch List.mem_cons_self),
      ih fun b hb => hrouted b (List.mem_cons_of_mem _ hb)]

theorem operations_flatten (batches : List (List Event)) :
    d.operations batches.flatten = (batches.map d.operations).flatten := by
  unfold operations SearchServer.operations
  rw [List.filterMap_flatten]

/-- Once all the batches are served and reported, the index has them, all puts of each batch
first. -/
theorem index_of_batches {p : DestinationProcessor.State} {batches : List (List Event)}
    (h : (DestinationProcessor.machine d.server d.stream.rt d.adapter initial).Reachable p)
    (hsent : p.sent.filter d.WritesIndex = (batches.map .processEvents).filter d.WritesIndex)
    (hserved : ∀ command ∈ p.queue, ¬ d.WritesIndex command)
    (hreported : ∀ e ∈ p.served, d.WritesIndex e.command → e.Reported)
    (hrouted : ∀ e ∈ batches.flatten, d.adapter.indexName d.stream.rt e = some d.indexName) :
    p.documents d.indexName =
      KeyedLog.run ((batches.map d.operations).flatMap KeyedLog.regroup)
        (initial d.indexName) := by
  have hlaw := DestinationProcessor.reachable_servesInOrder h
  have hqueue : p.queue.filter d.WritesIndex = [] :=
    List.filter_eq_nil_iff.mpr fun command hcommand hwrites =>
      hserved command hcommand (of_decide_eq_true hwrites)
  have hall : (p.served.map (·.command)).filter d.WritesIndex = p.sent.filter d.WritesIndex := by
    rw [← hlaw.order, List.filter_append, hqueue, List.append_nil]
  rw [hlaw.linked.index_eq hlaw.faithful hreported, ← flatMap_filter_writes, hall, hsent,
    flatMap_filter_writes, flatMap_batches]
  intro batch hbatch e he
  exact hrouted e (List.mem_flatten.mpr ⟨batch, hbatch, he⟩)

/-- **The index between two batches.** If all the commands up to some point are reported, there is a
place in the sent batches up to which the index has them all in order; of what comes after it the
index has some part. -/
theorem served_split (hstandard : d.stream.task.atLeastOnce = none)
    (hsize : 1 ≤ d.stream.batchSize) (h : ((d.machine initial).restrict d.Spares).Reachable s)
    (hfits : d.Fits s) {clean rest : List DestinationProcessor.Served}
    (hserved : s.processor.served = clean ++ rest)
    (hreported : ∀ e ∈ clean, d.WritesIndex e.command → e.Reported) :
    ∃ first later, s.batches = first ++ later ∧
      first.map .processEvents = (clean.map (·.command)).filter d.WritesIndex ∧
      later.map .processEvents =
        (rest.map (·.command) ++ s.processor.queue).filter d.WritesIndex ∧
      KeyedLog.PartlyRun (d.operations later.flatten)
        (KeyedLog.run (d.operations first.flatten) (initial d.indexName))
        (s.processor.documents d.indexName) := by
  have hlaw := DestinationProcessor.reachable_servesInOrder
    ((d.fronts initial).reachable h.of_restrict)
  have hsent := sent_append_batch hstandard hsize h
  have hrouted : ∀ batch ∈ s.batches, ∀ e ∈ batch,
      d.adapter.indexName d.stream.rt e = some d.indexName := by
    intro batch hbatch e he
    apply hfits.routed
    rw [← hsent]
    exact List.mem_append_left _ (List.mem_flatten.mpr ⟨batch, hbatch, he⟩)
  -- every batch changes the index
  have hall : (s.batches.map DestinationCommand.processEvents).filter d.WritesIndex =
      s.batches.map .processEvents := by
    apply List.filter_eq_self.mpr
    intro command hcommand
    obtain ⟨batch, hbatch, rfl⟩ := List.mem_map.mp hcommand
    have hne := ((reachable_feedInv hstandard hsize (reachable_feed h)).sends.sizes batch hbatch).1
    obtain ⟨e, he⟩ := List.exists_mem_of_length_pos hne
    exact decide_eq_true ⟨e, he, hrouted batch hbatch e he⟩
  have hwire := (d.fronts initial).sent h.of_restrict
  rw [hall, ← hlaw.order, hserved, List.map_append, List.append_assoc, List.filter_append] at hwire
  obtain ⟨first, later, hsplit, hfirst, hlater⟩ := List.map_eq_append_iff.mp hwire.symm
  refine ⟨first, later, hsplit, hfirst, hlater, ?_⟩
  obtain ⟨mid, hclean, hrest⟩ := (hserved ▸ hlaw.linked).split
  have hfaithful : ∀ e ∈ clean ++ rest,
      DestinationProcessor.Faithful d.server d.stream.rt d.adapter e := hserved ▸ hlaw.faithful
  have hregroup : ∀ {batches : List (List Event)}, (∀ batch ∈ batches, batch ∈ s.batches) →
      (batches.map .processEvents).flatMap
        (DestinationProcessor.operations d.server d.stream.rt d.adapter d.indexName) =
      (batches.map d.operations).flatMap KeyedLog.regroup :=
    fun hsub => flatMap_batches fun batch hbatch => hrouted batch (hsub batch hbatch)
  have hmid : mid d.indexName =
      KeyedLog.run (d.operations first.flatten) (initial d.indexName) := by
    have hsub : ∀ batch ∈ first, batch ∈ s.batches :=
      fun batch hbatch => hsplit ▸ List.mem_append_left _ hbatch
    rw [hclean.index_eq (fun e he => hfaithful e (List.mem_append_left _ he)) hreported,
      ← flatMap_filter_writes, ← hfirst, hregroup hsub, operations_flatten]
    apply KeyedLog.run_flatMap_regroup
    intro ops hops
    obtain ⟨batch, hbatch, rfl⟩ := List.mem_map.mp hops
    exact hfits.regroupable batch (hsub batch hbatch)
  have hend := hrest.partlyRun (fun e he => hfaithful e (List.mem_append_right _ he)) d.indexName
  rw [hmid, ← flatMap_filter_writes] at hend
  refine hend.mono fun op hop => ?_
  have hsub : ∀ batch ∈ later, batch ∈ s.batches :=
    fun batch hbatch => hsplit ▸ List.mem_append_right _ hbatch
  obtain ⟨command, hcommand, hop⟩ := List.mem_flatMap.mp hop
  have hmem : op ∈ (later.map .processEvents).flatMap
      (DestinationProcessor.operations d.server d.stream.rt d.adapter d.indexName) := by
    refine List.mem_flatMap.mpr ⟨command, ?_, hop⟩
    rw [hlater, List.filter_append]
    exact List.mem_append_left _ hcommand
  rw [hregroup hsub] at hmem
  obtain ⟨ops, hops, hop⟩ := List.mem_flatMap.mp hmem
  rw [operations_flatten]
  exact List.mem_flatten.mpr ⟨ops, hops, KeyedLog.mem_regroup.mp hop⟩

/-- The task has nothing in hand, and all of its batches are reported without failures. -/
structure Settled (d : Deployment) (s : State) : Prop where
  idle : s.feed.task.batch = []
  served : ∀ command ∈ s.processor.queue, ¬ d.WritesIndex command
  reported : ∀ e ∈ s.processor.served, d.WritesIndex e.command → e.Reported

/-- The batches are all of what the stages make, and each of them is in the index. -/
theorem Settled.index_eq (hstandard : d.stream.task.atLeastOnce = none)
    (hsize : 1 ≤ d.stream.batchSize) (hsettled : d.Settled s)
    (h : ((d.machine initial).restrict d.Spares).Reachable s) (hfits : d.Fits s) :
    s.processor.documents d.indexName = KeyedLog.run
      (d.operations (d.stream.stages.outputs d.stream.rt s.feed.task.received))
      (initial d.indexName) := by
  have hserved : s.processor.served = s.processor.served ++ [] := (List.append_nil _).symm
  obtain ⟨first, later, hsplit, -, hlater, hpart⟩ :=
    served_split hstandard hsize h hfits hserved hsettled.reported
  have hnone : later = [] := by
    have hqueue : ([] ++ s.processor.queue).filter d.WritesIndex = [] :=
      List.filter_eq_nil_iff.mpr fun command hcommand hwrites =>
        hsettled.served command hcommand (of_decide_eq_true hwrites)
    rw [List.map_nil, hqueue] at hlater
    exact List.map_eq_nil_iff.mp hlater
  have hall : first.flatten = d.stream.stages.outputs d.stream.rt s.feed.task.received := by
    rw [← sent_append_batch hstandard hsize h, hsettled.idle, hsplit, hnone, List.append_nil,
      List.append_nil]
  rw [hnone] at hpart
  rw [hpart.eq_of_nil, hall]

/-! ### One book on its way -/

theorem streamTurn_sent_prefix {params : EventStreamParams} {t t' : StreamState} {arm : Arm}
    (h : StreamTurn params t arm t') : sentBatches t.world.log <+: sentBatches t'.world.log := by
  cases h with
  | panics _ _ h =>
    rw [h]
  | waits hsent =>
    rw [hsent]
  | sends hsent =>
    rw [hsent]
    exact List.prefix_append _ _

theorem feedStep_sent_prefix (hstandard : d.stream.task.atLeastOnce = none) {f f' : TaskFeed}
    {l : FeedLabel} (h : FeedStep d.stream d.table f l f') :
    sentBatches f.task.world.log <+: sentBatches f'.task.world.log := by
  cases h with
  | coordinate => exact List.prefix_rfl
  | receive _ _ h | tick h | shutdown h =>
    exact streamTurn_sent_prefix (streamMachine_step_cases hstandard (fun _ hopen => hopen) h)

/-- Until the task sends something, the processor need not have done anything. -/
theorem reachable_unsent (hstandard : d.stream.task.atLeastOnce = none) {f : TaskFeed}
    (h : ((feedMachine d.stream d.table).restrict (SparesBatch d.stream d.table)).Reachable f)
    (hnone : sentBatches f.task.world.log = []) :
    ((d.machine initial).restrict d.Spares).Reachable ⟨f, ⟨.connecting, [], initial, [], []⟩⟩ := by
  induction h with
  | init h => exact .init ⟨h, rfl⟩
  | @step f f' l _ hs ih =>
    have hbefore : sentBatches f.task.world.log = [] := by
      have hprefix := feedStep_sent_prefix hstandard hs.2
      rw [hnone] at hprefix
      exact List.prefix_nil.mp hprefix
    have hsame : sentBatches f'.task.world.log = sentBatches f.task.world.log ++ [] := by
      rw [hnone, hbefore]
      rfl
    exact (ih hbefore).step (l := Label.feed l) ⟨hs.1, .feed hs.2 hsame rfl⟩

def booksDeployed : Deployment := ⟨pricesStream, "books", idServer, idAdapter, "books"⟩

/-- A tick has sent the book that waited in the batch. -/
def bookSent : TaskFeed :=
  { bookWaits with task := bookWaits.task.turn pricesStream writingAll .tick }

/-- The index of books with this one. -/
def withBook (w : Documents) : Documents :=
  SearchServer.change w "books" [.put "b1" (.object [("id", .string "b1")])]

/-- The batch is in the processor's channel. -/
def bookQueued (w : Documents) : DestinationProcessor.State where
  phase := .serving
  queue := [.processEvents [bookInserted]]
  documents := w
  sent := [.processEvents [bookInserted]]
  served := []

/-- The processor has served it. -/
def bookServed (w : Documents) : DestinationProcessor.State where
  phase := .serving
  queue := []
  documents := withBook w
  sent := [.processEvents [bookInserted]]
  served := [⟨.processEvents [bookInserted], .response ⟨1, 0, some (.postgreSQL "0/10"), []⟩, w,
    withBook w⟩]

theorem reachable_bookQueued (w : Documents) :
    ((booksDeployed.machine w).restrict booksDeployed.Spares).Reachable
      ⟨bookSent, bookQueued w⟩ := by
  have h₀ : ((booksDeployed.machine w).restrict booksDeployed.Spares).Reachable
      ⟨bookWaits, ⟨.connecting, [], w, [], []⟩⟩ := reachable_unsent rfl reachable_bookWaits rfl
  have h₁ := h₀.step (l := Label.processor (.connect true))
    ⟨trivial, .processor trivial (.connect rfl)⟩
  have htick : FeedStep pricesStream "books" bookWaits .tick bookSent :=
    .tick (streamMachine_turn writingAll_open rfl .tick)
  have hbatches : sentBatches bookSent.task.world.log =
      sentBatches bookWaits.task.world.log ++ [[bookInserted]] := by decide
  exact h₁.step (l := Label.feed .tick) ⟨trivial, .feed htick hbatches
    ⟨_, .send (by nofun) (Nat.zero_lt_succ _), rfl⟩⟩

theorem bookQueued_serve (w : Documents) :
    ((booksDeployed.machine w).restrict booksDeployed.Spares).step ⟨bookSent, bookQueued w⟩
      (.processor .serve) ⟨bookSent, bookServed w⟩ := by
  have hserve : DestinationProcessor.serve pricesStream.rt idAdapter 10 true
      (.processEvents [bookInserted]) = some _ := rfl
  exact ⟨trivial, .processor trivial (.serve
    (r := .ok ⟨1, 0, some (.postgreSQL "0/10"), []⟩) rfl rfl hserve
    ⟨.succeeds, trivial, .succeeds, trivial, rfl, rfl⟩)⟩

theorem reachable_bookServed (w : Documents) :
    ((booksDeployed.machine w).restrict booksDeployed.Spares).Reachable
      ⟨bookSent, bookServed w⟩ :=
  (reachable_bookQueued w).step (bookQueued_serve w)

theorem regroupable_book : KeyedLog.Regroupable (booksDeployed.operations [bookInserted]) := by
  intro k hdel
  have hops : booksDeployed.operations [bookInserted] =
      [.put "b1" (.object [("id", .string "b1")])] := rfl
  rw [hops] at hdel
  cases List.mem_singleton.mp hdel

theorem settled_bookServed (w : Documents) : booksDeployed.Settled ⟨bookSent, bookServed w⟩ where
  idle := rfl
  served := by
    intro command hcommand
    cases hcommand
  reported := by
    intro e he _
    obtain rfl := List.mem_singleton.mp he
    exact ⟨_, rfl, rfl⟩

theorem fits_bookSent {processor : DestinationProcessor.State} :
    booksDeployed.Fits ⟨bookSent, processor⟩ := by
  refine ⟨?_, ?_⟩
  · have houtputs :
        pricesStream.stages.outputs pricesStream.rt [bookInserted] = [bookInserted] := by
      decide
    intro e he
    obtain rfl := List.mem_singleton.mp (houtputs ▸ he)
    decide
  · intro batch hbatch
    obtain rfl := List.mem_singleton.mp (show batch ∈ [[bookInserted]] from hbatch)
    exact regroupable_book

/-- **From the channel to the index.** Once everything is settled, the index has changed by what the
stages make of the events received, in the order in which these arrived; whatever was done to other
indexes meanwhile. -/
theorem index_follows_stream (d : Deployment) (hstandard : d.stream.task.atLeastOnce = none)
    (hsize : 1 ≤ d.stream.batchSize) (initial : Documents) (s : State)
    (h : ((d.machine initial).restrict d.Spares).Reachable s) (hfits : d.Fits s)
    (hsettled : d.Settled s) :
    s.processor.documents d.indexName = KeyedLog.run
      (d.operations (d.stream.stages.outputs d.stream.rt s.feed.task.received))
      (initial d.indexName) :=
  hsettled.index_eq hstandard hsize h hfits

theorem index_follows_stream_book :
    withBook DestinationProcessor.noDocuments "books" = KeyedLog.run
      (booksDeployed.operations (pricesStream.stages.outputs pricesStream.rt [bookInserted]))
      (fun _ => none) :=
  index_follows_stream booksDeployed rfl (by decide) DestinationProcessor.noDocuments
    ⟨bookSent, bookServed _⟩ (reachable_bookServed _) fits_bookSent (settled_bookServed _)

end Deployment

end MeiliBridge
