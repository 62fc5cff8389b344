import MeiliBridge.Orchestrator.StreamBatches
import MeiliBridge.Pipeline.ChannelOrder

/-!
# From the source to the destination, one event after another

The coordinator's loop and the loop of one task without at-least-once delivery, with the task's
channel between them. `DeliversInOrder` is the law: the channel gets the events in the order in
which they arrived and none of them twice, the task receives them in that order, and the batches it
sends are together what the stages make of them.

A panic of the transformer ends the task, and what waits in the batch is never sent. `SparesBatch`
is the condition that nothing waits there then. It is exact: `delivers_in_order` says that in every
run whose steps meet it the law holds, and that a next step keeps the law if and only if it meets
it.
-/

set_option autoImplicit false

namespace MeiliBridge

open Trans

/-! ## The two loops -/

structure TaskFeed where
  coordinator : CdcCoordinator.State
  task : StreamState

inductive FeedLabel where
  /-- a step of the coordinator, of its source, of the API or of another task -/
  | coordinate (l : CdcCoordinator.Label)
  | receive
  | tick
  | shutdown (requested : Bool)

/-- The steps, where the task is registered under `table`. It drops its channel when it ends. -/
inductive FeedStep (params : EventStreamParams) (table : String) :
    TaskFeed → FeedLabel → TaskFeed → Prop
  | coordinate {s : TaskFeed} {l : CdcCoordinator.Label} {coordinator : CdcCoordinator.State}
      (hrecv : l ≠ .recv table) (hclose : l = .close table → s.task.running = false)
      (h : CdcCoordinator.Step s.coordinator l coordinator) :
      FeedStep params table s (.coordinate l) { s with coordinator }
  | receive {s : TaskFeed} {ch : CdcCoordinator.TaskChannel} {m : CdcCoordinator.Message}
      {rest : List CdcCoordinator.Message} {task : StreamState}
      (hch : s.coordinator.taskChannels table = some ch) (hqueue : ch.queue = m :: rest)
      (h : (streamMachine params Choice.ChannelOpen).step s.task (.event (.ok m.event)) task) :
      FeedStep params table s .receive
        ⟨s.coordinator.setChannel table { ch with queue := rest }, task⟩
  | tick {s : TaskFeed} {task : StreamState}
      (h : (streamMachine params Choice.ChannelOpen).step s.task .tick task) :
      FeedStep params table s .tick { s with task }
  | shutdown {s : TaskFeed} {requested : Bool} {task : StreamState}
      (h : (streamMachine params Choice.ChannelOpen).step s.task (.shutdown requested) task) :
      FeedStep params table s (.shutdown requested) { s with task }

/-- The coordinator and the task are started, and nothing is sent. -/
structure FeedStarts (params : EventStreamParams) (s : TaskFeed) : Prop where
  coordinator : CdcCoordinator.Starts s.coordinator
  task : (streamMachine params Choice.ChannelOpen).init s.task
  log : s.task.world.log = []

def feedMachine (params : EventStreamParams) (table : String) : Machine TaskFeed FeedLabel where
  init := FeedStarts params
  step := FeedStep params table

variable {params : EventStreamParams} {table : String} {s s' : TaskFeed}

/-! ### The two loops are the machines of their own -/

theorem feed_coordinator (h : (feedMachine params table).Reachable s) :
    CdcCoordinator.machine.Reachable s.coordinator := by
  induction h with
  | init h => exact .init h.coordinator
  | step _ hs ih =>
    cases hs with
    | coordinate _ _ h => exact ih.step h
    | receive hch hqueue _ => exact ih.step (.recv hch hqueue)
    | tick | shutdown => exact ih

/-! ## The law -/

structure DeliversInOrder (params : EventStreamParams) (table : String) (s : TaskFeed) : Prop where
  /-- the channel gets the events in the order of their arrival, each at most once -/
  ascending : (s.coordinator.putOn table).Pairwise (· < ·)
  /-- the task receives what was put in its channel, from the first event on -/
  received : s.task.received.map some <+: s.coordinator.puts table
  /-- what the stages make of it is sent, but for the batch -/
  sent : (sentBatches s.task.world.log).flatten ++ s.task.batch =
    params.stages.outputs params.rt s.task.received
  /-- once the task has ended, nothing waits in the batch -/
  stopped : s.task.running = false → s.task.batch = []
  sizes : ∀ batch ∈ sentBatches s.task.world.log,
    1 ≤ batch.length ∧ batch.length ≤ params.batchSize

/-- No event on which the transformer panics is received while others wait in the batch. -/
def SparesBatch (params : EventStreamParams) (table : String) (s : TaskFeed) : FeedLabel → Prop
  | .receive => ∀ ch m rest, s.coordinator.taskChannels table = some ch → ch.queue = m :: rest →
      params.stages.TransformPanics params.rt m.event → s.task.batch = []
  | _ => True

/-! ## The task's part -/

/-- The part of the law that is about the task, and the size of its batch. -/
structure SendsAll (params : EventStreamParams) (t : StreamState) : Prop where
  sent : (sentBatches t.world.log).flatten ++ t.batch = params.stages.outputs params.rt t.received
  stopped : t.running = false → t.batch = []
  sizes : ∀ batch ∈ sentBatches t.world.log, 1 ≤ batch.length ∧ batch.length ≤ params.batchSize
  pending : t.batch.length < params.batchSize

theorem SendsAll.init (hsize : 1 ≤ params.batchSize) {t : StreamState}
    (h : (streamMachine params Choice.ChannelOpen).init t) (hlog : t.world.log = []) :
    SendsAll params t := by
  obtain ⟨hbatch, hreceived, hrunning⟩ := h
  refine ⟨?_, ?_, ?_, ?_⟩
  · rw [hlog, hbatch, hreceived]
    rfl
  · intro _
    exact hbatch
  · intro batch hmem
    rw [hlog] at hmem
    cases hmem
  · rw [hbatch]
    exact hsize

/-- An arm carries at most one event, and the stages make at most one event of it. -/
theorem length_outputs_received (params : EventStreamParams) (arm : Arm) :
    (params.stages.outputs params.rt arm.received).length ≤ 1 := by
  refine Nat.le_trans (List.length_filterMap_le _ _) ?_
  cases arm with
  | event received => cases received <;> simp [Arm.received]
  | tick | shutdown => simp [Arm.received]

/-- One turn of the loop. -/
theorem SendsAll.turn {t t' : StreamState} {arm : Arm} (hi : SendsAll params t)
    (hturn : StreamTurn params t arm t')
    (hspares : ∀ e, arm = .event (.ok e) → params.stages.TransformPanics params.rt e →
      t.batch = []) : SendsAll params t' := by
  cases hturn with
  | @panics e harm hpanics h =>
    -- the panic takes what waits in the batch with it, which is nothing by the condition
    have hempty := hspares e harm hpanics
    subst h
    refine ⟨?_, fun _ => rfl, hi.sizes, Nat.zero_lt_of_lt hi.pending⟩
    show (sentBatches t.world.log).flatten ++ [] =
      params.stages.outputs params.rt (t.received ++ [e])
    rw [Stages.outputs_append, Stages.outputs_singleton,
      Stages.processSingleEvent_panicked_iff.mpr hpanics, ← hi.sent, hempty]
    exact (List.append_nil _).symm
  | waits hsent hreceived hbatch hsize hrunning =>
    refine ⟨?_, hrunning, ?_, ?_⟩
    · rw [hsent, hbatch, hreceived, Stages.outputs_append, ← hi.sent, List.append_assoc]
    · rw [hsent]
      exact hi.sizes
    · rcases hsize with hsame | hlt
      · rw [hsame]
        exact hi.pending
      · exact hlt
  | sends hsent hreceived hbatch hsome =>
    refine ⟨?_, fun _ => hbatch, ?_, ?_⟩
    · rw [hsent, hbatch, hreceived, Stages.outputs_append, ← hi.sent, List.flatten_append,
        List.append_nil, List.append_assoc]
      simp
    · intro batch hmem
      rw [hsent] at hmem
      rcases List.mem_append.mp hmem with hold | hnew
      · exact hi.sizes batch hold
      · rw [List.mem_singleton.mp hnew]
        have hone := length_outputs_received params arm
        have hpending := hi.pending
        refine ⟨List.length_pos_iff.mpr hsome, ?_⟩
        rw [List.length_append]
        omega
    · rw [hbatch]
      exact Nat.zero_lt_of_lt hi.pending

/-! ## The invariant -/

/-- That the channel is in order is a fact about the coordinator alone. -/
structure FeedInv (params : EventStreamParams) (table : String) (s : TaskFeed) : Prop where
  fifo : CdcCoordinator.Fifo s.coordinator table s.task.received
  sends : SendsAll params s.task

theorem FeedInv.deliversInOrder (h : FeedInv params table s)
    (hordered : CdcCoordinator.Ordered s.coordinator) : DeliversInOrder params table s where
  ascending := hordered.increasing table
  received := h.fifo.received
  sent := h.sends.sent
  stopped := h.sends.stopped
  sizes := h.sends.sizes

theorem FeedInv.init (hsize : 1 ≤ params.batchSize) (h : FeedStarts params s) :
    FeedInv params table s where
  fifo := by
    rw [h.task.2.1]
    exact .init h.coordinator table
  sends := .init hsize h.task h.log

/-- A turn that takes nothing from the channel. -/
theorem FeedInv.own (hstandard : params.task.atLeastOnce = none) (hi : FeedInv params table s)
    {arm : Arm} {task : StreamState} (harm : arm.received = [])
    (h : (streamMachine params Choice.ChannelOpen).step s.task arm task) :
    FeedInv params table { s with task } := by
  have hturn := streamMachine_step_cases hstandard (fun _ hopen => hopen) h
  have hreceived := hturn.received
  rw [harm, List.append_nil] at hreceived
  refine ⟨?_, hi.sends.turn hturn ?_⟩
  · show CdcCoordinator.Fifo s.coordinator table task.received
    rw [hreceived]
    exact hi.fifo
  · intro e hevent _
    rw [hevent] at harm
    cases harm

theorem FeedInv.step (hstandard : params.task.atLeastOnce = none) {l : FeedLabel}
    (hordered : CdcCoordinator.Ordered s.coordinator) (hi : FeedInv params table s)
    (hspares : SparesBatch params table s l)
    (hs : FeedStep params table s l s') : FeedInv params table s' := by
  cases hs with
  | coordinate hrecv hclose h => exact ⟨hi.fifo.step hordered h hrecv, hi.sends⟩
  | @receive ch m rest task hch hqueue h =>
    have hturn := streamMachine_step_cases hstandard (fun _ hopen => hopen) h
    refine ⟨?_, hi.sends.turn hturn ?_⟩
    · show CdcCoordinator.Fifo _ table task.received
      rw [hturn.received]
      exact hi.fifo.recv hch hqueue
    · intro e harm hpanics
      cases harm
      exact hspares ch m rest hch hqueue hpanics
  | tick h => exact hi.own hstandard rfl h
  | shutdown h => exact hi.own hstandard rfl h

/-- Where the transformer panics with a batch in hand, the batch is lost. -/
theorem DeliversInOrder.spares {l : FeedLabel} (hi : FeedInv params table s)
    (hs : FeedStep params table s l s') (h : DeliversInOrder params table s') :
    SparesBatch params table s l := by
  cases hs with
  | @receive ch m rest task hch hqueue hstep =>
    intro ch' m' rest' hch' hqueue' hpanics
    rw [hch] at hch'
    cases hch'
    rw [hqueue] at hqueue'
    cases hqueue'
    have hsent := h.sent
    rw [streamMachine_panics hpanics hstep] at hsent
    replace hsent : (sentBatches s.task.world.log).flatten ++ [] =
      params.stages.outputs params.rt (s.task.received ++ [m.event]) := hsent
    rw [Stages.outputs_append, Stages.outputs_singleton,
      Stages.processSingleEvent_panicked_iff.mpr hpanics, ← hi.sends.sent, List.append_assoc,
      List.append_cancel_left_eq] at hsent
    simpa [Outcome.returned] using hsent.symm
  | coordinate | tick | shutdown => trivial

theorem feed_ordered (h : (feedMachine params table).Reachable s) :
    CdcCoordinator.Ordered s.coordinator :=
  CdcCoordinator.reachable_ordered (feed_coordinator h)

theorem reachable_feedInv (hstandard : params.task.atLeastOnce = none)
    (hsize : 1 ≤ params.batchSize)
    (h : ((feedMachine params table).restrict (SparesBatch params table)).Reachable s) :
    FeedInv params table s := by
  refine h.invariant_using (fun _ hs => feed_ordered hs.of_restrict) (fun _ hs => .init hsize hs) ?_
  intro s l s' hordered hi hs
  exact hi.step hstandard hordered hs.1 hs.2

/-- **Sequential delivery keeps order and multiplicity**, in every run in which the transformer
never panics while events wait in the batch. A next step keeps the law exactly if it meets this
condition. -/
theorem delivers_in_order (params : EventStreamParams) (table : String)
    (hstandard : params.task.atLeastOnce = none) (hsize : 1 ≤ params.batchSize) (s : TaskFeed)
    (h : ((feedMachine params table).restrict (SparesBatch params table)).Reachable s) :
    DeliversInOrder params table s ∧ ∀ l s', (feedMachine params table).step s l s' →
      (DeliversInOrder params table s' ↔ SparesBatch params table s l) := by
  have hinv := reachable_feedInv hstandard hsize h
  have hordered := feed_ordered h.of_restrict
  refine ⟨hinv.deliversInOrder hordered, ?_⟩
  intro l s' hs
  constructor
  · exact DeliversInOrder.spares hinv hs
  · intro hspares
    exact (hinv.step hstandard hordered hspares hs).deliversInOrder
      (feed_ordered (h.of_restrict.step hs))

/-! ### A price that is no number -/

/-- A task that reads the prices of books as numbers, with batches of two events. -/
def pricesStream : EventStreamParams where
  rt := ⟨id, id, ""⟩
  stages := ⟨none, some
    ⟨⟨AList.insert "books" (AList.insert "price" (.convert "price" "number") ∅) ∅,
    none⟩⟩, none, none⟩
  batchSize := 2
  task := ⟨"books", true, none⟩

/-- A book with a price that reads as an infinity. -/
def bookPriced : Event :=
  .cdc ⟨.update, "books", "public", [("id", .string "b1"), ("price", .string "inf")],
    some (.postgreSQL "0/20")⟩

/-- A coordinator that waits, with this in the channel of the books. -/
def booksCoordinator (queue : List CdcCoordinator.Message)
    (arrived : List CdcCoordinator.Arrival) (delivered : List (Nat × String)) :
    CdcCoordinator.State where
  incoming := []
  taskChannels name := if name = "books" then some ⟨queue, true⟩ else none
  isPaused := false
  pausedTables := ∅
  loop := .waiting
  arrived
  delivered

/-- The first book has gone through the channel, and waits in the batch. -/
def bookWaits : TaskFeed :=
  ⟨booksCoordinator [] [⟨bookInserted, false⟩] [(0, "books")],
    freshWorld, [bookInserted], [bookInserted], true⟩

theorem booksCoordinator_setChannel (queue queue' : List CdcCoordinator.Message)
    (arrived : List CdcCoordinator.Arrival) (delivered : List (Nat × String)) :
    (booksCoordinator queue arrived delivered).setChannel "books" ⟨queue', true⟩ =
      booksCoordinator queue' arrived delivered := by
  have hchannels : Function.update (booksCoordinator queue arrived delivered).taskChannels "books"
      (some ⟨queue', true⟩) = (booksCoordinator queue' arrived delivered).taskChannels := by
    funext name
    by_cases hname : name = "books"
    · subst hname
      rfl
    · rw [Function.update_of_ne hname]
      simp [booksCoordinator, hname]
  unfold CdcCoordinator.State.setChannel
  rw [hchannels]
  rfl

theorem writingAll_open : writingAll.ChannelOpen := by
  intro events h
  cases h

theorem reachable_coordinate {l : CdcCoordinator.Label} {coordinator : CdcCoordinator.State}
    (h : ((feedMachine params table).restrict (SparesBatch params table)).Reachable s)
    (hl : l ≠ .recv table ∧ l ≠ .close table)
    (hs : CdcCoordinator.Step s.coordinator l coordinator) :
    ((feedMachine params table).restrict (SparesBatch params table)).Reachable
      { s with coordinator } :=
  h.step (l := FeedLabel.coordinate l)
    ⟨trivial, .coordinate hl.1 (fun heq => absurd heq hl.2) hs⟩

/-- An event about the books arrives and gets into the channel. -/
theorem reachable_arrives {queue : List CdcCoordinator.Message}
    {arrived : List CdcCoordinator.Arrival} {delivered : List (Nat × String)} {task : StreamState}
    {e : Event} (he : e.targets = ["public.books", "books"])
    (hroom : queue.length < CdcCoordinator.channelCapacity)
    (h : ((feedMachine params "books").restrict (SparesBatch params "books")).Reachable
      ⟨booksCoordinator queue arrived delivered, task⟩) :
    ((feedMachine params "books").restrict (SparesBatch params "books")).Reachable
      ⟨booksCoordinator (queue ++ [⟨arrived.length, e⟩]) (arrived ++ [⟨e, false⟩])
        (delivered ++ [(arrived.length, "books")]), task⟩ := by
  have harrive : (booksCoordinator queue arrived delivered).arrive (.ok e) =
      { booksCoordinator queue (arrived ++ [⟨e, false⟩]) delivered with
        incoming := [.ok ⟨arrived.length, e⟩] } := by
    simp [CdcCoordinator.State.arrive, CdcCoordinator.State.tablePaused, booksCoordinator]
  have hcheck : CdcCoordinator.Step
      { booksCoordinator queue (arrived ++ [⟨e, false⟩]) delivered with
        loop := .distributing ⟨arrived.length, e⟩ } .checkTable
      { booksCoordinator queue (arrived ++ [⟨e, false⟩]) delivered with
        loop := .sending ⟨arrived.length, e⟩ ["public.books", "books"] } := by
    have hstep := CdcCoordinator.Step.checkTable
      (s := { booksCoordinator queue (arrived ++ [⟨e, false⟩]) delivered with
        loop := .distributing ⟨arrived.length, e⟩ }) rfl
    simpa [CdcCoordinator.State.tablePaused, booksCoordinator, he] using hstep
  -- the qualified name comes first, and nobody has registered it
  have hother : CdcCoordinator.State.Unreachable
      { booksCoordinator queue (arrived ++ [⟨e, false⟩]) delivered with
        loop := .sending ⟨arrived.length, e⟩ ["public.books", "books"] } "public.books" := by
    intro ch hch
    cases hch
  have h₁ := reachable_coordinate (l := .arrive (.ok e)) h (by simp) .arrive
  rw [harrive] at h₁
  have h₂ := reachable_coordinate (l := .receive) h₁ (by simp) (.receive rfl rfl)
  have h₃ := reachable_coordinate (l := .checkPaused) h₂ (by simp) (.checkPaused rfl)
  have h₄ := reachable_coordinate (l := .checkTable) h₃ (by simp) hcheck
  have h₅ := reachable_coordinate (l := .trySend) h₄ (by simp) (.skip rfl hother)
  have h₆ := reachable_coordinate (l := .trySend) h₅ (by simp) (.trySend rfl rfl rfl hroom)
  have h₇ := reachable_coordinate (l := .finish) h₆ (by simp) (.finish rfl)
  have hput := booksCoordinator_setChannel queue (queue ++ [⟨arrived.length, e⟩])
    (arrived ++ [⟨e, false⟩]) (delivered ++ [(arrived.length, "books")])
  rw [← hput]
  exact h₇

theorem bookWaits_eq : (⟨booksCoordinator [⟨0, bookInserted⟩] [⟨bookInserted, false⟩] [(0, "books")]
    |>.setChannel "books" ⟨[], true⟩, freshWorld, [bookInserted], [bookInserted], true⟩ :
    TaskFeed) = bookWaits := by
  rw [booksCoordinator_setChannel]
  rfl

theorem reachable_bookWaits :
    ((feedMachine pricesStream "books").restrict (SparesBatch pricesStream "books")).Reachable
      bookWaits := by
  have h₀ : ((feedMachine pricesStream "books").restrict
      (SparesBatch pricesStream "books")).Reachable
      ⟨CdcCoordinator.registered ["books"], booksStarted⟩ :=
    .init ⟨CdcCoordinator.registered_starts _, ⟨rfl, rfl, rfl⟩, rfl⟩
  have hstarted : { CdcCoordinator.registered ["books"] with loop := .waiting } =
      booksCoordinator [] [] [] := by simp [CdcCoordinator.registered, booksCoordinator]
  have h₁ := reachable_coordinate (l := .start true) h₀ (by simp) (.start rfl)
  rw [if_pos rfl, hstarted] at h₁
  have h₂ := reachable_arrives (e := bookInserted) (by decide) (by decide) h₁
  have h₃ := h₂.step (l := FeedLabel.receive)
    ⟨?_, .receive rfl rfl (streamMachine_turn writingAll_open rfl _)⟩
  · rw [← bookWaits_eq]
    exact h₃
  · intro _ _ _ _ _ _
    rfl

/-- The second change fills the batch, and the one whose price is no number comes when nothing
waits. -/
theorem delivers_in_order_books : ∃ s,
    sentBatches s.task.world.log = [[bookInserted, bookChanged]] ∧
    s.task.received = [bookInserted, bookChanged, bookPriced] ∧
    DeliversInOrder pricesStream "books" s := by
  have h₁ := reachable_arrives (e := bookChanged) (by decide) (by decide) reachable_bookWaits
  have h₂ := h₁.step (l := FeedLabel.receive)
    ⟨?_, .receive rfl rfl (streamMachine_turn writingAll_open rfl _)⟩
  · rw [booksCoordinator_setChannel] at h₂
    have h₃ := reachable_arrives (e := bookPriced) (by decide) (by decide) h₂
    have h₄ := h₃.step (l := FeedLabel.receive)
      ⟨?_, .receive rfl rfl (streamMachine_turn writingAll_open rfl _)⟩
    · exact ⟨_, by decide, rfl, (delivers_in_order pricesStream "books" rfl (by decide) _ h₄).1⟩
    · intro _ _ _ _ _ _
      rfl
  · intro ch m rest hch hqueue hpanics
    cases hch
    cases hqueue
    exact absurd (Stages.processSingleEvent_panicked_iff.mpr hpanics) (by decide)

/-- The second book ends the task, and the first one is not sent. -/
theorem not_always_delivered_in_order : ¬ ∀ (params : EventStreamParams) (table : String)
    (s : TaskFeed), params.task.atLeastOnce = none → 1 ≤ params.batchSize →
      (feedMachine params table).Reachable s → DeliversInOrder params table s := by
  intro h
  have h₁ := reachable_arrives (e := bookPriced) (by decide) (by decide) reachable_bookWaits
  have h₂ := h₁.of_restrict.step (l := FeedLabel.receive)
    (.receive rfl rfl (streamMachine_turn writingAll_open rfl _))
  have hsent := (h pricesStream "books" _ rfl (by decide) h₂).sent
  revert hsent
  decide

end MeiliBridge
