import MeiliBridge.Orchestrator.ExactlyOnce
import MeiliBridge.Orchestrator.Mirror

/-!
# A table that is read again, and its index

The task of `MeiliBridge.Orchestrator.ExactlyOnce` in front of the destination processor. Its stream
reads the changes of one table and goes back as it likes. Nothing of that is to be seen in the
index: it holds the table as it was after the last change that was read.
-/

set_option autoImplicit false

namespace MeiliBridge

open Trans

structure ReplayedDeployment extends Deployment where
  source : MirroredTable
  /-- `deduplication_window` -/
  window : Nat

namespace ReplayedDeployment

variable (d : ReplayedDeployment)

/-- What the stages of the task make of the changes of the table. -/
def log : List Event :=
  d.stream.stages.outputs d.stream.rt (d.source.changes.map d.source.event)

structure State where
  replay : ReplayedTask.State
  processor : DestinationProcessor.State

inductive Label where
  | task (l : ReplayedTask.Label)
  | processor (l : DestinationProcessor.Label)

/-- The batches that the task has sent. -/
def State.batches (s : State) : List (List Event) := sentBatches s.replay.task.world.log

inductive Step : State → Label → State → Prop
  | task {s : State} {l : ReplayedTask.Label} {replay : ReplayedTask.State}
      {batches : List (List Event)} {processor : DestinationProcessor.State}
      (h : ReplayedTask.Step d.stream.task d.log s.replay l replay)
      (hbatches : sentBatches replay.task.world.log = s.batches ++ batches)
      (hsends : d.Sends s.processor (batches.map .processEvents) processor) :
      Step s (.task l) ⟨replay, processor⟩
  | processor {s : State} {l : DestinationProcessor.Label} {processor : DestinationProcessor.State}
      (hothers : d.FromOthers l)
      (h : DestinationProcessor.Step d.server d.stream.rt d.adapter s.processor l processor) :
      Step s (.processor l) ⟨s.replay, processor⟩

/-- Everything is started on these documents. -/
def machine (initial : Documents) : Machine State Label where
  init s := (ReplayedTask.machine d.stream.task d.window d.log).init s.replay ∧
    s.processor = ⟨.connecting, [], initial, [], []⟩
  step := d.Step

/-- The window is enough for how far the stream goes back. -/
def WithinWindow (s : State) : Label → Prop
  | .task l => ReplayedTask.WithinWindow d.window d.log s.replay l
  | .processor _ => True

variable {d} {initial : Documents} {s s' : State}

theorem reachable_task (h : ((d.machine initial).restrict d.WithinWindow).Reachable s) :
    ((ReplayedTask.machine d.stream.task d.window d.log).restrict
      (ReplayedTask.WithinWindow d.window d.log)).Reachable s.replay := by
  induction h with
  | init h => exact .init h.1
  | step _ hs ih =>
    obtain ⟨hok, hs⟩ := hs
    cases hs with
    | task h => exact ih.step ⟨hok, h⟩
    | processor => exact ih

theorem fronts (d : ReplayedDeployment) (initial : Documents) :
    d.Fronts initial (d.machine initial) State.processor State.batches where
  init s h := by
    obtain ⟨⟨w, -, hlog, hreplay⟩, hprocessor⟩ := h
    refine ⟨hprocessor, ?_⟩
    rw [State.batches, hreplay]
    show sentBatches w.log = []
    rw [hlog]
    rfl
  step s l s' hs := by
    cases hs with
    | task _ hbatches hsends => exact .sends hbatches hsends
    | processor hothers h => exact .others rfl hothers h

/-- No call of the task has failed, nothing is on its way, and every batch is reported. -/
structure Settled (d : ReplayedDeployment) (s : State) : Prop where
  running : s.replay.task.running = true
  kept : s.replay.task.kept = []
  idle : s.replay.task.batch = []
  served : ∀ command ∈ s.processor.queue, ¬ d.WritesIndex command
  reported : ∀ e ∈ s.processor.served, d.WritesIndex e.command → e.Reported

/-- The stages make one event of each change. -/
theorem take_log (hfollows : d.source.Follows d.toDeployment) (n : Nat) :
    d.log.take n =
      d.stream.stages.outputs d.stream.rt ((d.source.changes.take n).map d.source.event) := by
  have hone : ∀ changes : List TableChange, (∀ c ∈ changes, c ∈ d.source.changes) → ∀ n,
      (d.stream.stages.outputs d.stream.rt (changes.map d.source.event)).take n =
        d.stream.stages.outputs d.stream.rt ((changes.take n).map d.source.event) := by
    intro changes
    induction changes with
    | nil =>
      intro _ n
      rw [List.take_nil]
      exact List.take_nil
    | cons c rest ih =>
      intro hsub n
      obtain ⟨e, hkept, -⟩ := hfollows c (hsub c List.mem_cons_self)
      have hcons : ∀ events, d.stream.stages.outputs d.stream.rt (d.source.event c :: events) =
          e :: d.stream.stages.outputs d.stream.rt events := by
        intro events
        rw [Stages.outputs, List.filterMap_cons, hkept]
        rfl
      cases n with
      | zero => rfl
      | succ n =>
        rw [List.map_cons, hcons, List.take_succ_cons, List.take_succ_cons, List.map_cons, hcons,
          ih fun c hc => hsub c (List.mem_cons_of_mem _ hc)]
  exact hone _ (fun _ hc => hc) n

/-! ### A book, read again before its change -/

/-- A table in which one book is inserted and changed. -/
def bookHistory : MirroredTable where
  table := "books"
  schema := "public"
  initial _ := none
  changes := [⟨.insert [("id", .string "b1")], [("id", .string "b1")], "b1",
      some (.postgreSQL "0/10")⟩,
    ⟨.update [("id", .string "b1")], [("id", .string "b1")], "b1", some (.postgreSQL "0/20")⟩]
  image := .object

def booksReplayed : ReplayedDeployment :=
  { Deployment.booksDeployed with
    stream := { pricesStream with task := booksTask }
    source := bookHistory
    window := 100 }

theorem follows_bookHistory : booksReplayed.source.Follows booksReplayed.toDeployment := by
  intro c hc
  rcases List.mem_cons.mp hc with rfl | hc
  · exact ⟨bookInserted, rfl, rfl, rfl⟩
  · obtain rfl := List.mem_singleton.mp hc
    exact ⟨bookChanged, rfl, rfl, rfl⟩

/-- Both have been sent and served, and the first was read twice. -/
theorem exists_bookReplayed : ∃ s,
    ((booksReplayed.machine DestinationProcessor.noDocuments).restrict
      booksReplayed.WithinWindow).Reachable s ∧ Settled booksReplayed s ∧
      s.batches = [[bookInserted], [bookChanged]] ∧ s.replay.furthest = 2 := by
  have h₀ : ((booksReplayed.machine DestinationProcessor.noDocuments).restrict
      booksReplayed.WithinWindow).Reachable
      ⟨⟨.start freshWorld, 0, 0⟩, ⟨.connecting, [], DestinationProcessor.noDocuments, [], []⟩⟩ :=
    .init ⟨⟨freshWorld, rfl, rfl, rfl⟩, rfl⟩
  have h₁ := h₀.step (l := Label.processor (.connect true))
    ⟨trivial, .processor trivial (.connect rfl)⟩
  have h₂ := h₁.step (l := Label.task .read)
    ⟨trivial, .task (.read rfl (taskMachine_receive rfl bookInserted)) (List.append_nil _).symm rfl⟩
  have hsent : sentBatches (((TaskState.start freshWorld).receive bookInserted).process booksTask
      ReplayedTask.taken).world.log = [[bookInserted]] := by decide
  have h₃ := h₂.step (l := Label.task .process)
    ⟨fun _ _ hkept => absurd hkept List.not_mem_nil,
      .task (.process (taskMachine_process rfl ReplayedTask.taken)) hsent
        ⟨_, .send nofun (Nat.zero_lt_succ _), rfl⟩⟩
  have hserve : DestinationProcessor.serve booksReplayed.stream.rt idAdapter 10 true
      (.processEvents [bookInserted]) = some _ := rfl
  have h₄ := h₃.step (l := Label.processor .serve) ⟨trivial, .processor trivial (.serve
    (r := .ok ⟨1, 0, some (.postgreSQL "0/10"), []⟩) rfl rfl hserve
    ⟨.succeeds, trivial, .succeeds, trivial, rfl, rfl⟩)⟩
  -- the stream goes back and reads both changes; the window lets the second one in only
  have h₅ := h₄.step (l := Label.task (.goBack 0))
    ⟨show 1 ≤ 0 + SharedDeduplication.capacity 100 by decide,
      .task (.goBack (Nat.zero_le _)) (List.append_nil _).symm rfl⟩
  have h₆ := h₅.step (l := Label.task .read)
    ⟨trivial, .task (.read rfl (taskMachine_receive rfl bookInserted)) (List.append_nil _).symm rfl⟩
  have h₇ := h₆.step (l := Label.task .read)
    ⟨trivial, .task (.read rfl (taskMachine_receive rfl bookChanged)) (List.append_nil _).symm rfl⟩
  have hsent' : sentBatches ReplayedTask.booksReread.world.log =
      [[bookInserted]] ++ [[bookChanged]] := by decide
  have h₈ := h₇.step (l := Label.task .process)
    ⟨fun _ _ hkept => absurd hkept List.not_mem_nil,
      .task (.process (taskMachine_process rfl ReplayedTask.taken)) hsent'
        ⟨_, .send nofun (Nat.zero_lt_succ _), rfl⟩⟩
  have hserve' : DestinationProcessor.serve booksReplayed.stream.rt idAdapter 10 true
      (.processEvents [bookChanged]) = some _ := rfl
  have h₉ := h₈.step (l := Label.processor .serve) ⟨trivial, .processor trivial (.serve
    (r := .ok ⟨1, 0, some (.postgreSQL "0/20"), []⟩) rfl rfl hserve'
    ⟨.succeeds, trivial, .succeeds, trivial, rfl, rfl⟩)⟩
  refine ⟨_, h₉, ⟨rfl, rfl, rfl, ?_, ?_⟩, hsent', rfl⟩
  · intro command hcommand
    cases hcommand
  · intro e he _
    rcases List.mem_cons.mp he with rfl | he
    · exact ⟨_, rfl, rfl⟩
    · obtain rfl := List.mem_singleton.mp he
      exact ⟨_, rfl, rfl⟩

end ReplayedDeployment

end MeiliBridge
