import MeiliBridge.Destination.FilteredIndex
import MeiliBridge.Orchestrator.Deployment

/-!
# The index as the image of a table

The changes of a table are a log, and what the log has left after so many changes is the table
(`rows`). A task that keeps every event of the table makes of this log another one, on documents,
and the index is what some run of it leaves.

Deliveries fail, the processor is aborted in the middle of a command, and a new run starts at an
earlier change than the one before has got to. `Recovered` are the indexes that come of it:
`recovered_asOf` says that each of its documents is still a version that its row had, and none older
than what had been reported; `index_mirrors_table` that one undisturbed run makes it the table
again.
-/

set_option autoImplicit false

namespace MeiliBridge

open Trans

/-- A change of a row: its key columns, which are all that a deletion carries, and the id that its
document has. -/
structure TableChange where
  change : RowChange
  key : Fields
  documentId : String
  position : Option Position

namespace TableChange

def op (c : TableChange) : KeyedLog.Op String Fields :=
  match c.change with
  | .insert version | .update version => .put c.documentId version
  | .delete => .del c.documentId

end TableChange

/-- A table of the source, and what becomes of its rows on their way to the index. -/
structure MirroredTable where
  table : String
  schema : String
  /-- the rows before the first change -/
  initial : String → Option Fields
  /-- all that happens to it, in the order of the commits -/
  changes : List TableChange
  image : Fields → Value

namespace MirroredTable

variable (t : MirroredTable)

def event (c : TableChange) : Event :=
  .cdc {
    eventType := c.change.eventType
    table := t.table
    schema := t.schema
    data := c.change.data c.key
    position := c.position }

/-- The rows after `n` changes, under the ids of their documents. -/
def rows (n : Nat) : String → Option Fields :=
  KeyedLog.after (t.changes.map TableChange.op) t.initial n

/-- What the changes do to the documents. -/
def log : List (KeyedLog.Op String Value) := t.changes.map fun c => c.op.mapValue t.image

/-- The documents of the rows before the first change -/
def initialImage : String → Option Value := fun k => (t.initial k).map t.image

theorem after_log (n : Nat) :
    KeyedLog.after t.log t.initialImage n = fun k => (t.rows n k).map t.image := by
  have htake : t.log.take n =
      ((t.changes.map TableChange.op).take n).map (KeyedLog.Op.mapValue t.image) := by
    rw [log, ← List.map_take, ← List.map_take, List.map_map]
    rfl
  rw [KeyedLog.after, htake]
  exact KeyedLog.run_mapValue t.image _ t.initial

/-- Each key of the index stands as its row did after some number of changes from `lo` to `hi`. -/
def AsOf (lo hi : Nat) (index : String → Option Value) : Prop :=
  ∀ k, ∃ n, lo ≤ n ∧ n ≤ hi ∧ index k = (t.rows n k).map t.image

theorem asOf_iff {lo hi : Nat} {index : String → Option Value} :
    t.AsOf lo hi index ↔ KeyedLog.AsOf t.log t.initialImage lo hi index := by
  unfold AsOf KeyedLog.AsOf
  simp only [after_log]

/-- The task keeps every event of the table, and its stages make of the row what the image says. -/
def Follows (d : Deployment) : Prop :=
  ∀ c ∈ t.changes, ∃ e, d.stream.stages.processSingleEvent d.stream.rt (t.event c) = .kept e ∧
    d.adapter.indexName d.stream.rt e = some d.indexName ∧
    d.server.operation d.adapter d.indexName e = some (c.op.mapValue t.image)

/-! ## One run -/

variable {t : MirroredTable} {d : Deployment} {initial : Documents} {s : Deployment.State}

/-- A run that reads the table from the change `start` on: what gets into the channel are its
changes, and no batch writes a row again after deleting it. -/
structure Reads (t : MirroredTable) (d : Deployment) (initial : Documents) (start : Nat)
    (s : Deployment.State) : Prop where
  run : ((d.machine initial).restrict d.Spares).Reachable s
  source : s.feed.coordinator.puts d.table <+: (t.changes.drop start).map (some ∘ t.event)
  regroupable : ∀ batch ∈ s.batches, KeyedLog.Regroupable (d.operations batch)

/-- How far the task has read. -/
def stop (start : Nat) (s : Deployment.State) : Nat := start + s.feed.task.received.length

theorem Follows.outputs (h : t.Follows d) {changes : List TableChange}
    (hsub : ∀ c ∈ changes, c ∈ t.changes) :
    (∀ e ∈ d.stream.stages.outputs d.stream.rt (changes.map t.event),
      d.adapter.indexName d.stream.rt e = some d.indexName ∧
        (d.server.operation d.adapter d.indexName e).isSome) ∧
    d.operations (d.stream.stages.outputs d.stream.rt (changes.map t.event)) =
      changes.map fun c => c.op.mapValue t.image := by
  induction changes with
  | nil => exact ⟨fun e he => absurd he List.not_mem_nil, rfl⟩
  | cons c rest ih =>
    obtain ⟨hrest, hops⟩ := ih fun c hc => hsub c (List.mem_cons_of_mem _ hc)
    obtain ⟨e, hkept, hindex, hop⟩ := h c (hsub c List.mem_cons_self)
    have hcons : d.stream.stages.outputs d.stream.rt ((c :: rest).map t.event) =
        e :: d.stream.stages.outputs d.stream.rt (rest.map t.event) := by
      rw [List.map_cons, Stages.outputs, List.filterMap_cons, hkept]
      rfl
    rw [hcons]
    refine ⟨?_, ?_⟩
    · intro e' he'
      rcases List.mem_cons.mp he' with rfl | he'
      · rw [hop]
        exact ⟨hindex, rfl⟩
      · exact hrest e' he'
    · unfold Deployment.operations SearchServer.operations at hops ⊢
      rw [List.filterMap_cons, hop, hops, List.map_cons]

/-- What the task has received is a segment of the table's changes. -/
theorem Reads.received (hstandard : d.stream.task.atLeastOnce = none)
    (hsize : 1 ≤ d.stream.batchSize) {start : Nat} (h : t.Reads d initial start s) :
    s.feed.task.received = (KeyedLog.segment t.changes start (stop start s)).map t.event := by
  have hfifo := (reachable_feedInv hstandard hsize (Deployment.reachable_feed h.run)).fifo.received
  have hprefix := List.prefix_iff_eq_take.mp (hfifo.trans h.source)
  rw [List.length_map, ← List.map_take, ← List.map_map] at hprefix
  have hsome : Function.Injective (some : Event → Option Event) := fun _ _ => Option.some.inj
  rw [(List.map_injective_iff.mpr hsome) hprefix, List.take_drop]
  rfl

/-- What the stages make of it is that segment of the log. -/
theorem Reads.outputs (hstandard : d.stream.task.atLeastOnce = none)
    (hsize : 1 ≤ d.stream.batchSize) (hfollows : t.Follows d) {start : Nat}
    (h : t.Reads d initial start s) :
    (∀ e ∈ d.stream.stages.outputs d.stream.rt s.feed.task.received,
      (d.server.operation d.adapter d.indexName e).isSome) ∧ d.Fits s ∧
    d.operations (d.stream.stages.outputs d.stream.rt s.feed.task.received) =
      KeyedLog.segment t.log start (stop start s) := by
  have hsub : ∀ c ∈ KeyedLog.segment t.changes start (stop start s), c ∈ t.changes :=
    fun c hc => List.mem_of_mem_take (List.mem_of_mem_drop hc)
  obtain ⟨houtputs, hops⟩ := hfollows.outputs hsub
  rw [← h.received hstandard hsize] at houtputs hops
  rw [KeyedLog.map_segment] at hops
  exact ⟨fun e he => (houtputs e he).2, ⟨fun e he => (houtputs e he).1, h.regroupable⟩, hops⟩

/-- The number of events of the batches among these commands. -/
def eventsIn (d : Deployment) (commands : List DestinationCommand) : Nat :=
  ((commands.filter d.WritesIndex).map fun command =>
    match command with
    | .processEvents events => events.length
    | _ => 0).sum

theorem eventsIn_of_batches {batches : List (List Event)} {commands : List DestinationCommand}
    (h : batches.map .processEvents = commands.filter d.WritesIndex) :
    eventsIn d commands = batches.flatten.length := by
  rw [eventsIn, ← h, List.map_map, List.length_flatten]
  rfl

theorem length_operations {events : List Event}
    (h : ∀ e ∈ events, (d.server.operation d.adapter d.indexName e).isSome) :
    (d.operations events).length = events.length := by
  induction events with
  | nil => rfl
  | cons e rest ih =>
    obtain ⟨op, hop⟩ := Option.isSome_iff_exists.mp (h e List.mem_cons_self)
    have hrest := ih fun e he => h e (List.mem_cons_of_mem _ he)
    unfold Deployment.operations SearchServer.operations at hrest ⊢
    rw [List.filterMap_cons, hop, List.length_cons, List.length_cons, hrest]

/-- **What a run leaves, wherever it is cut short.** If the commands up to some point are reported,
each document is a version that its row had between the last change of these and the last that was
received, or later if it was before. -/
theorem Reads.asOf (hstandard : d.stream.task.atLeastOnce = none)
    (hsize : 1 ≤ d.stream.batchSize) (hfollows : t.Follows d) {lo hi start : Nat}
    (h : t.Reads d initial start s) (hinitial : t.AsOf lo hi (initial d.indexName))
    (hstart : start ≤ lo) {clean rest : List DestinationProcessor.Served}
    (hserved : s.processor.served = clean ++ rest)
    (hreported : ∀ e ∈ clean, d.WritesIndex e.command → e.Reported) :
    t.AsOf (start + eventsIn d (clean.map (·.command))) (max hi (stop start s))
      (s.processor.documents d.indexName) := by
  obtain ⟨hsome, hfits, hops⟩ := h.outputs hstandard hsize hfollows
  obtain ⟨first, later, hsplit, hfirst, -, hpart⟩ :=
    Deployment.served_split hstandard hsize h.run hfits hserved hreported
  rw [eventsIn_of_batches hfirst]
  have hsent := Deployment.sent_append_batch hstandard hsize h.run
  rw [hsplit, List.flatten_append, List.append_assoc] at hsent
  -- the log of what was sent, cut after the reported batches
  have hlog : KeyedLog.segment t.log start (stop start s) = d.operations first.flatten ++
      (d.operations later.flatten ++ d.operations s.feed.task.batch) := by
    rw [← hops, ← hsent]
    unfold Deployment.operations SearchServer.operations
    rw [List.filterMap_append, List.filterMap_append]
  have hlength : (d.operations first.flatten).length = first.flatten.length := by
    apply length_operations
    intro e he
    apply hsome e
    rw [← hsent]
    exact List.mem_append_left _ he
  obtain ⟨hfirstLog, hlaterLog, hle⟩ :=
    KeyedLog.segment_eq_append hlog (Nat.le_add_right start _)
  rw [hlength] at hfirstLog hlaterLog hle
  rw [hfirstLog] at hpart
  have hpart := hpart.mono (List.subset_append_left _ (d.operations s.feed.task.batch))
  rw [hlaterLog] at hpart
  have hread := (t.asOf_iff.mp hinitial).replay hstart (Nat.le_add_right start first.flatten.length)
  have hcut := hread.partlyRun hpart
  rw [Nat.min_self, Nat.max_assoc, Nat.max_eq_right hle] at hcut
  exact t.asOf_iff.mpr hcut

/-! ## One run after another -/

/-- The documents that a number of runs leave. Each starts on what the one before has left, at a
change that is not behind anything reported; `lo` and `hi` bound where the documents stand. -/
inductive Recovered (t : MirroredTable) (d : Deployment) : Nat → Nat → Documents → Prop
  | start {lo hi : Nat} {w : Documents} (h : t.AsOf lo hi (w d.indexName)) : Recovered t d lo hi w
  | run {lo hi start : Nat} {w : Documents} {s : Deployment.State}
      {clean rest : List DestinationProcessor.Served} (h : Recovered t d lo hi w)
      (hreads : t.Reads d w start s) (hstart : start ≤ lo)
      (hserved : s.processor.served = clean ++ rest)
      (hreported : ∀ e ∈ clean, d.WritesIndex e.command → e.Reported) :
      Recovered t d (start + eventsIn d (clean.map (·.command))) (max hi (stop start s))
        s.processor.documents

theorem Recovered.asOf (hstandard : d.stream.task.atLeastOnce = none)
    (hsize : 1 ≤ d.stream.batchSize) (hfollows : t.Follows d) {lo hi : Nat} {w : Documents}
    (h : t.Recovered d lo hi w) : t.AsOf lo hi (w d.indexName) := by
  induction h with
  | start h => exact h
  | run _ hreads hstart hserved hreported ih =>
    exact hreads.asOf hstandard hsize hfollows ih hstart hserved hreported

/-- A run that is settled has caught up with the table, whatever was in the index before. -/
theorem Reads.caughtUp (hstandard : d.stream.task.atLeastOnce = none)
    (hsize : 1 ≤ d.stream.batchSize) (hfollows : t.Follows d) {lo hi start : Nat}
    (h : t.Reads d initial start s) (hinitial : t.AsOf lo hi (initial d.indexName))
    (hstart : start ≤ lo) (hhi : hi ≤ stop start s) (hsettled : d.Settled s) :
    s.processor.documents d.indexName = fun k => (t.rows (stop start s) k).map t.image := by
  obtain ⟨-, hfits, hops⟩ := h.outputs hstandard hsize hfollows
  rw [hsettled.index_eq hstandard hsize h.run hfits, hops, ← after_log]
  exact (t.asOf_iff.mp hinitial).caughtUp hstart (Nat.le_add_right start _) hhi

/-! ### A new book, after a full sync -/

/-- A table with one book, and a second one that comes. -/
def bookTable : MirroredTable where
  table := "books"
  schema := "public"
  initial k := if k = "1" then some [("id", .number (.ofNat 1))] else none
  changes := [⟨.insert [("id", .string "b1")], [("id", .string "b1")], "b1",
    some (.postgreSQL "0/10")⟩]
  image := .object

theorem follows_books : bookTable.Follows Deployment.booksDeployed := by
  intro c hc
  obtain rfl := List.mem_singleton.mp hc
  exact ⟨bookInserted, rfl, rfl, rfl⟩

theorem reads_books (w : Documents) : bookTable.Reads Deployment.booksDeployed w 0
    ⟨Deployment.bookSent, Deployment.bookServed w⟩ where
  run := Deployment.reachable_bookServed w
  source := by
    show Deployment.bookSent.coordinator.puts "books" <+: [some bookInserted]
    decide
  regroupable := by
    intro batch hbatch
    obtain rfl := List.mem_singleton.mp (show batch ∈ [[bookInserted]] from hbatch)
    exact Deployment.regroupable_book

theorem asOf_oneBook : bookTable.AsOf 0 0 (DestinationProcessor.oneBook "books") := by
  intro k
  refine ⟨0, Nat.le_refl 0, Nat.le_refl 0, ?_⟩
  show Function.update (fun _ => none) "1" (some (Value.object [("id", .number (.ofNat 1))])) k =
    (if k = "1" then some [("id", .number (.ofNat 1))] else none).map Value.object
  by_cases hk : k = "1"
  · subst hk
    rfl
  · rw [Function.update_of_ne hk, if_neg hk]
    rfl

/-- **Whatever the runs met, the index holds no document that its row never was.** Each key stands
at a time of its own, between the last change that was reported and the last that was received. -/
theorem recovered_asOf (t : MirroredTable) (d : Deployment)
    (hstandard : d.stream.task.atLeastOnce = none) (hsize : 1 ≤ d.stream.batchSize)
    (hfollows : t.Follows d) (lo hi : Nat) (w : Documents) (h : t.Recovered d lo hi w) :
    t.AsOf lo hi (w d.indexName) :=
  h.asOf hstandard hsize hfollows

/-- All that was received is reported. -/
theorem recovered_asOf_books :
    bookTable.AsOf 1 1 (Deployment.withBook DestinationProcessor.oneBook "books") := by
  have hsynced : bookTable.Recovered Deployment.booksDeployed 0 0 DestinationProcessor.oneBook :=
    .start asOf_oneBook
  have hrun := hsynced.run (reads_books _) (Nat.le_refl 0) (List.append_nil _).symm
    (Deployment.settled_bookServed _).reported
  exact recovered_asOf bookTable Deployment.booksDeployed rfl (by decide) follows_books 1 1 _ hrun

/-- **A run that is not disturbed makes the index the table again**, if it starts no later than at
the last change that was reported, and gets as far as any run before it. -/
theorem index_mirrors_table (t : MirroredTable) (d : Deployment)
    (hstandard : d.stream.task.atLeastOnce = none) (hsize : 1 ≤ d.stream.batchSize)
    (hfollows : t.Follows d) (lo hi start : Nat) (w : Documents) (h : t.Recovered d lo hi w)
    (s : Deployment.State) (hreads : t.Reads d w start s) (hstart : start ≤ lo)
    (hhi : hi ≤ stop start s) (hsettled : d.Settled s) :
    s.processor.documents d.indexName = fun k => (t.rows (stop start s) k).map t.image :=
  hreads.caughtUp hstandard hsize hfollows (h.asOf hstandard hsize hfollows) hstart hhi hsettled

theorem index_mirrors_table_books :
    Deployment.withBook DestinationProcessor.oneBook "books" =
      fun k => (bookTable.rows 1 k).map Value.object :=
  index_mirrors_table bookTable Deployment.booksDeployed rfl (by decide) follows_books 0 0 0 _
    (.start asOf_oneBook) _ (reads_books _) (Nat.le_refl 0) (Nat.zero_le _)
    (Deployment.settled_bookServed _)

/-! ## A full sync before the first run -/

/-- The documents that these commands import into the task's index. -/
def imported (d : Deployment) (commands : List DestinationCommand) : List Value :=
  commands.flatMap fun command =>
    match command with
    | .importData index documents _ => if index = d.indexName then documents else []
    | _ => []

/-- The documents of a table that is read while it changes, each row at a time of its own. -/
def Snapshot (t : MirroredTable) (d : Deployment) (lo hi : Nat) (documents : List Value) : Prop :=
  t.AsOf lo hi (KeyedLog.run (documents.filterMap (d.server.addition d.indexName)) fun _ => none)

theorem flatMap_imports {commands : List DestinationCommand}
    (h : ∀ command ∈ commands, d.WritesIndex command →
      ∃ documents pk, command = .importData d.indexName documents pk) :
    commands.flatMap (DestinationProcessor.operations d.server d.stream.rt d.adapter d.indexName) =
      (imported d commands).filterMap (d.server.addition d.indexName) := by
  induction commands with
  | nil => rfl
  | cons command rest ih =>
    have ih := ih fun c hc => h c (List.mem_cons_of_mem _ hc)
    have hcons : imported d (command :: rest) = imported d [command] ++ imported d rest := by
      rw [imported, imported, imported, ← List.flatMap_append]
      rfl
    rw [List.flatMap_cons, ih, hcons, List.filterMap_append]
    congr 1
    by_cases hwrites : d.WritesIndex command
    · obtain ⟨documents, pk, rfl⟩ := h command List.mem_cons_self hwrites
      simp [DestinationProcessor.operations, imported]
    · rw [DestinationProcessor.operations_of_not_writes hwrites]
      cases command with
      | importData index documents pk =>
        have hne : ¬ index = d.indexName := hwrites
        simp [imported, hne]
      | processEvents | ensureIndex | healthCheck | shutdown => rfl

/-- **A full sync into an empty index, and a run after it.** The full sync may read the table while
it changes: if the run starts no later than the full sync did, and goes on at least to where the
full sync ended, the index is the table. -/
theorem snapshot_then_stream (t : MirroredTable) (d : Deployment)
    (hstandard : d.stream.task.atLeastOnce = none) (hsize : 1 ≤ d.stream.batchSize)
    (hfollows : t.Follows d) (initial : Documents) (hempty : initial d.indexName = fun _ => none)
    (p : DestinationProcessor.State)
    (hp : (DestinationProcessor.machine d.server d.stream.rt d.adapter initial).Reachable p)
    (himports : ∀ e ∈ p.served, d.WritesIndex e.command →
      e.Reported ∧ ∃ documents pk, e.command = .importData d.indexName documents pk)
    (lo hi start : Nat)
    (hsnapshot : t.Snapshot d lo hi (imported d (p.served.map (·.command))))
    (s : Deployment.State) (hreads : t.Reads d p.documents start s) (hstart : start ≤ lo)
    (hhi : hi ≤ stop start s) (hsettled : d.Settled s) :
    s.processor.documents d.indexName = fun k => (t.rows (stop start s) k).map t.image := by
  have hinv := DestinationProcessor.reachable_servesInOrder hp
  have hreported : ∀ e ∈ p.served, d.WritesIndex e.command → e.Reported :=
    fun e he hwrites => (himports e he hwrites).1
  have hholds := hinv.linked.index_eq hinv.faithful hreported
  have hcommands : ∀ command ∈ p.served.map (·.command), d.WritesIndex command →
      ∃ documents pk, command = .importData d.indexName documents pk := by
    intro command hcommand hwrites
    obtain ⟨e, he, rfl⟩ := List.mem_map.mp hcommand
    exact (himports e he hwrites).2
  rw [hempty, flatMap_imports hcommands] at hholds
  have hsynced : t.AsOf lo hi (p.documents d.indexName) := by
    rw [hholds]
    exact hsnapshot
  exact hreads.caughtUp hstandard hsize hfollows hsynced hstart hhi hsettled

/-- The full sync imports the first book, and the run brings the second. -/
theorem snapshot_then_stream_books :
    (Deployment.bookServed DestinationProcessor.bookImported.documents).documents "books" =
      fun k => (bookTable.rows 1 k).map Value.object := by
  have himported := DestinationProcessor.reachable_bookImported (fun _ _ => True)
    fun _ _ _ => trivial
  refine snapshot_then_stream bookTable Deployment.booksDeployed rfl (by decide) follows_books
    DestinationProcessor.noDocuments rfl DestinationProcessor.bookImported himported.of_restrict
    ?_ 0 0 0 asOf_oneBook _ (reads_books _) (Nat.le_refl 0) (Nat.zero_le _)
    (Deployment.settled_bookServed _)
  intro e he _
  obtain rfl := List.mem_singleton.mp he
  exact ⟨⟨_, rfl, rfl⟩, _, _, rfl⟩

end MirroredTable

end MeiliBridge
