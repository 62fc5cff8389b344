import MeiliBridge.Lib.KeyedLog
import MeiliBridge.Destination.EventGroups

/-!
# What a batch leaves in the index

The search server is assumed to do this and no more: adding a document inserts or replaces it under
its id, deleting removes by id, and calls take effect in the order issued. Which id an index reads
off a document is the server's business and a parameter here.

`eval_processEvents` is what `process_events` leaves in the one index its events are bound for: all
additions of the batch, then all its deletions. Comparing this with the events taken one at a time
is a question about logs of puts and deletes.
-/

set_option autoImplicit false

namespace MeiliBridge

open Interaction

/-- The id under which each index files a document. -/
structure SearchServer where
  documentId : String → Value → Option String

/-- The documents of every index, by id. -/
abbrev Documents := String → String → Option Value

namespace SearchServer

/-- The changes a list of documents makes, if all of them carry an id. -/
def additions (srv : SearchServer) (indexName : String) (documents : List Value) :
    Option (List (KeyedLog.Op String Value)) :=
  documents.mapM fun d => (srv.documentId indexName d).map fun id => .put id d

def change (w : Documents) (indexName : String) (ops : List (KeyedLog.Op String Value)) :
    Documents :=
  Function.update w indexName (KeyedLog.run ops (w indexName))

/-- The effect of a call. A document without an id fails the whole addition. -/
def effect (srv : SearchServer) (w : Documents) : MeiliOp → Option Documents
  | .getIndex _ | .getOrCreateIndex _ _ => some w
  | .addDocuments indexName documents _ =>
    (srv.additions indexName documents).map (change w indexName)
  | .deleteDocuments indexName ids => some (change w indexName (ids.map .del))

def handler (srv : SearchServer) : Handler MeiliOp (fun _ => Result Unit) Reply Documents where
  exec o reply w :=
    match srv.effect w o with
    | some w' => reply.call w w'
    | none => (.error (.meilisearch "Add documents failed"), w)

/-- The documents after `process_events`, when no call fails. -/
def process (srv : SearchServer) (rt : Runtime) (a : MeilisearchAdapter) (w : Documents)
    (events : List Event) : Documents :=
  (eval srv.handler .succeeds (a.processEvents rt events) w).2

/-! ## The change one event stands for -/

/-- What an event does to the index: it adds its document, or deletes by its primary key. -/
def operation (srv : SearchServer) (a : MeilisearchAdapter) (indexName : String) (event : Event) :
    Option (KeyedLog.Op String Value) :=
  match BatchProcessor.upsertOf event with
  | some d => (srv.documentId indexName d).map fun id => .put id d
  | none => (BatchProcessor.deleteOf (a.batchPrimaryKey indexName) event).map .del

def operations (srv : SearchServer) (a : MeilisearchAdapter) (indexName : String)
    (events : List Event) : List (KeyedLog.Op String Value) :=
  events.filterMap (srv.operation a indexName)

/-- Every document of the events carries the id the index wants. -/
def Keyed (srv : SearchServer) (indexName : String) (events : List Event) : Prop :=
  ∀ e ∈ events, ∀ d, BatchProcessor.upsertOf e = some d → (srv.documentId indexName d).isSome

@[simp] theorem change_nil (w : Documents) (indexName : String) : change w indexName [] = w := by
  simp [change]

theorem change_append (w : Documents) (indexName : String)
    (xs ys : List (KeyedLog.Op String Value)) :
    change w indexName (xs ++ ys) = change (change w indexName xs) indexName ys := by
  simp [change, KeyedLog.run_append]

theorem change_eq_iff {w : Documents} {indexName : String}
    {xs ys : List (KeyedLog.Op String Value)} :
    change w indexName xs = change w indexName ys ↔
      KeyedLog.run xs (w indexName) = KeyedLog.run ys (w indexName) :=
  ⟨fun h => by simpa [change] using congrFun h indexName, fun h => by simp [change, h]⟩

theorem deleteOf_of_upsertOf {primaryKey : Option String} {e : Event} {d : Value}
    (h : BatchProcessor.upsertOf e = some d) : BatchProcessor.deleteOf primaryKey e = none := by
  cases e with
  | cdc e =>
    cases he : e.eventType with
    | delete => simp [BatchProcessor.upsertOf, he] at h
    | _ => simp [BatchProcessor.deleteOf, he]
  | _ => rfl

/-- The puts of the events' log are the documents of the batch, the deletes its ids. -/
theorem regroup_operations {srv : SearchServer} {a : MeilisearchAdapter} {indexName : String}
    {events : List Event} (hk : srv.Keyed indexName events) :
    srv.additions indexName (events.filterMap BatchProcessor.upsertOf) =
        some ((srv.operations a indexName events).filter (·.isPut)) ∧
      (events.filterMap (BatchProcessor.deleteOf (a.batchPrimaryKey indexName))).map .del =
        (srv.operations a indexName events).filter (!·.isPut) := by
  induction events with
  | nil => exact ⟨rfl, rfl⟩
  | cons e events ih =>
    obtain ⟨hadd, hdel⟩ := ih fun e he => hk e (List.mem_cons_of_mem _ he)
    unfold additions operations at *
    cases hu : BatchProcessor.upsertOf e with
    | some d =>
      obtain ⟨id, hid⟩ := Option.isSome_iff_exists.mp (hk e List.mem_cons_self d hu)
      have hop : srv.operation a indexName e = some (.put id d) := by simp [operation, hu, hid]
      simp [hu, deleteOf_of_upsertOf hu, hop, hid, hadd, hdel, KeyedLog.Op.isPut]
    | none =>
      cases hd : BatchProcessor.deleteOf (a.batchPrimaryKey indexName) e with
      | some id =>
        have hop : srv.operation a indexName e = some (.del id) := by simp [operation, hu, hd]
        simp [hu, hd, hop, hadd, hdel, KeyedLog.Op.isPut]
      | none =>
        have hop : srv.operation a indexName e = none := by simp [operation, hu, hd]
        simp [hu, hd, hop, hadd, hdel]

/-! ## The effect of `process_events` on one index -/

theorem eval_getOrCreateIndex (srv : SearchServer) (a : MeilisearchAdapter) (indexName : String)
    (primaryKey : Option String) (w : Documents) :
    eval srv.handler .succeeds (a.getOrCreateIndex indexName primaryKey) w = (.ok (), w) := by
  unfold MeilisearchAdapter.getOrCreateIndex
  cases a.autoCreateIndex <;> rfl

theorem eval_applyUpserts {srv : SearchServer} {a : MeilisearchAdapter} {bp : BatchProcessor}
    {indexName : String} {ops : List (KeyedLog.Op String Value)}
    (h : srv.additions indexName bp.documentsToUpsert = some ops) (result : SyncResult)
    (w : Documents) :
    ∃ result', eval srv.handler .succeeds (a.applyUpserts bp indexName result) w =
      (.ok result', change w indexName ops) := by
  unfold MeilisearchAdapter.applyUpserts
  split
  · next hnil =>
    rw [hnil] at h
    cases h
    exact ⟨result, by simp [eval]⟩
  · simp only [Prog.perform, Prog.bind_eq, Prog.bind, eval, handler, effect, h, Option.map_some]
    exact ⟨_, rfl⟩

theorem eval_applyDeletes (srv : SearchServer) (bp : BatchProcessor) (indexName : String)
    (result : SyncResult) (w : Documents) :
    ∃ result', eval srv.handler .succeeds
        (MeilisearchAdapter.applyDeletes bp indexName result) w =
      (.ok result', change w indexName (bp.documentsToDelete.map .del)) := by
  unfold MeilisearchAdapter.applyDeletes
  split
  · next hnil => exact ⟨result, by simp [hnil, eval]⟩
  · simp only [Prog.perform, Prog.bind_eq, Prog.bind, eval, handler, effect]
    exact ⟨_, rfl⟩

theorem eval_applyBatch {srv : SearchServer} (a : MeilisearchAdapter) (bp : BatchProcessor)
    {indexName : String} {ops : List (KeyedLog.Op String Value)}
    (h : srv.additions indexName bp.documentsToUpsert = some ops) (primaryKey : Option String)
    (w : Documents) :
    ∃ result, eval srv.handler .succeeds (a.applyBatch bp indexName primaryKey) w =
      (.ok result, change w indexName (ops ++ bp.documentsToDelete.map .del)) := by
  unfold MeilisearchAdapter.applyBatch
  split
  · next hempty =>
    simp only [BatchProcessor.isEmpty, Bool.and_eq_true, List.isEmpty_iff] at hempty
    rw [hempty.1] at h
    cases h
    exact ⟨.new, by simp [eval, hempty.2]⟩
  · obtain ⟨r₁, h₁⟩ := eval_applyUpserts (a := a) h .new w
    obtain ⟨r₂, h₂⟩ := eval_applyDeletes srv bp indexName r₁ (change w indexName ops)
    simp only [Prog.bind_eq, eval_bind, eval_getOrCreateIndex, h₁, h₂, change_append]
    exact ⟨r₂, rfl⟩

/-- All additions of the group, then all its deletions. -/
theorem eval_processGroup {srv : SearchServer} {a : MeilisearchAdapter} {indexName : String}
    {events : List Event} (hk : srv.Keyed indexName events) (result : SyncResult) (w : Documents) :
    ∃ result', eval srv.handler .succeeds (a.processGroup indexName events result) w =
      (.ok result', change w indexName (KeyedLog.regroup (srv.operations a indexName events))) := by
  obtain ⟨hadd, hdel⟩ := regroup_operations (a := a) hk
  simp only [MeilisearchAdapter.processGroup, BatchProcessor.processAll_fst, BatchProcessor.extend,
    BatchProcessor.new, List.nil_append]
  split
  · next hempty =>
    simp only [BatchProcessor.isEmpty, Bool.and_eq_true, List.isEmpty_iff] at hempty
    have hops : KeyedLog.regroup (srv.operations a indexName events) = [] := by
      rw [hempty.1] at hadd
      rw [hempty.2] at hdel
      rw [KeyedLog.regroup, ← hdel, ← Option.some.inj hadd]
      rfl
    exact ⟨_, by rw [hops, change_nil]; rfl⟩
  · let bp : BatchProcessor := ⟨events.filterMap BatchProcessor.upsertOf,
      events.filterMap (BatchProcessor.deleteOf (a.batchPrimaryKey indexName)),
      a.batchPrimaryKey indexName⟩
    obtain ⟨r, hr⟩ := eval_applyBatch a bp hadd (a.batchPrimaryKey indexName) w
    simp only [bp, hdel] at hr
    simp only [Prog.bind_eq, eval_bind, hr]
    exact ⟨_, rfl⟩

/-- Events bound for one index make one group. -/
theorem groupEvents_eq {rt : Runtime} {a : MeilisearchAdapter} {indexName : String}
    {events : List Event} (hi : ∀ e ∈ events, a.indexName rt e = some indexName) :
    a.groupEvents rt events = if events = [] then [] else [(indexName, events)] := by
  induction events using List.reverseRec with
  | nil => rfl
  | append_singleton events e ih =>
    rw [MeilisearchAdapter.groupEvents_snoc (hi e (by simp)), ih fun e he => hi e (by simp [he])]
    by_cases hnil : events = [] <;> simp [hnil, MeilisearchAdapter.pushEvent]

/-- **What `process_events` leaves in the index of its events**: the log of the events with all
puts first. -/
theorem process_eq {srv : SearchServer} {rt : Runtime} {a : MeilisearchAdapter}
    {indexName : String} {events : List Event}
    (hi : ∀ e ∈ events, a.indexName rt e = some indexName) (hk : srv.Keyed indexName events)
    (w : Documents) :
    srv.process rt a w events =
      change w indexName (KeyedLog.regroup (srv.operations a indexName events)) := by
  unfold process MeilisearchAdapter.processEvents
  rw [groupEvents_eq hi]
  by_cases hnil : events = []
  · have hno : a.iterate [] = [] := by
      simp [MeilisearchAdapter.iterate, List.perm_nil.mp (a.hashOrder_perm [])]
    simp [hnil, hno, operations, KeyedLog.regroup, MeilisearchAdapter.processGroups,
      Prog.bind, eval]
  · have hone : a.iterate [(indexName, events)] = [(indexName, events)] := by
      simp [MeilisearchAdapter.iterate, List.perm_singleton.mp (a.hashOrder_perm [indexName])]
    obtain ⟨r, hr⟩ := eval_processGroup (a := a) hk .new w
    simp only [if_neg hnil, hone, MeilisearchAdapter.processGroups, Prog.bind_eq, eval_bind, hr]
    rfl

/-! ## A batch against its events one at a time -/

/-- The documents after `process_events` on each event alone, in order. -/
def processEach (srv : SearchServer) (rt : Runtime) (a : MeilisearchAdapter) (w : Documents)
    (events : List Event) : Documents :=
  events.foldl (fun w e => srv.process rt a w [e]) w

/-- One event alone makes its own change: there is nothing to regroup. -/
theorem process_singleton {srv : SearchServer} {rt : Runtime} {a : MeilisearchAdapter}
    {indexName : String} {e : Event} (hi : a.indexName rt e = some indexName)
    (hk : srv.Keyed indexName [e]) (w : Documents) :
    srv.process rt a w [e] = change w indexName (srv.operations a indexName [e]) := by
  rw [process_eq (by simpa using hi) hk, change_eq_iff, KeyedLog.run_regroup_eq_iff]
  intro k hdel
  cases hop : srv.operation a indexName e with
  | none => simp [operations, hop] at hdel
  | some o =>
    simp only [operations, hop, List.filterMap_cons, List.filterMap_nil, List.mem_singleton] at *
    subst hdel
    simp [KeyedLog.lastOn, KeyedLog.Op.key]

theorem processEach_eq {srv : SearchServer} {rt : Runtime} {a : MeilisearchAdapter}
    {indexName : String} {events : List Event}
    (hi : ∀ e ∈ events, a.indexName rt e = some indexName) (hk : srv.Keyed indexName events)
    (w : Documents) :
    srv.processEach rt a w events = change w indexName (srv.operations a indexName events) := by
  induction events generalizing w with
  | nil => simp [processEach, operations]
  | cons e events ih =>
    have hcons : srv.operations a indexName (e :: events) =
        srv.operations a indexName [e] ++ srv.operations a indexName events := by
      simp only [operations, ← List.filterMap_append, List.singleton_append]
    have hone := process_singleton (hi e List.mem_cons_self) (fun e' he' => hk e' (by simp_all)) w
    rw [hcons, change_append, ← hone]
    exact ih (fun e' he' => hi e' (List.mem_cons_of_mem _ he'))
      (fun e' he' => hk e' (List.mem_cons_of_mem _ he')) _

end SearchServer

/-- **A batch leaves what its events leave one at a time exactly when every id it deletes is
deleted by the last of its operations on that id.** -/
theorem process_eq_processEach_iff (srv : SearchServer) (rt : Runtime) (a : MeilisearchAdapter)
    (indexName : String) (events : List Event) (w : Documents)
    (hi : ∀ e ∈ events, a.indexName rt e = some indexName)
    (hk : srv.Keyed indexName events) :
    srv.process rt a w events = srv.processEach rt a w events ↔
      KeyedLog.Regroupable (srv.operations a indexName events) := by
  rw [SearchServer.process_eq hi hk, SearchServer.processEach_eq hi hk,
    SearchServer.change_eq_iff, KeyedLog.run_regroup_eq_iff]

/-! ### A deletion followed by a new row of the same key -/

/-- An index that reads the field `id`. -/
def idServer : SearchServer where
  documentId _ d := (d.get "id").bind BatchProcessor.deleteId

def idAdapter : MeilisearchAdapter where
  primaryKey := some "id"
  autoCreateIndex := true
  tableToIndex := ∅
  hashOrder := id
  hashOrder_perm := List.Perm.refl

/-- A change of row 1 of the table `books`. -/
def bookEvent (eventType : EventType) : Event :=
  .cdc {
    eventType
    table := "books"
    schema := "public"
    data := [("id", .number (.ofNat 1))]
    position := none }

theorem keyed_bookEvents (ts : List EventType) : idServer.Keyed "books" (ts.map bookEvent) := by
  intro e he d hd
  obtain ⟨t, -, rfl⟩ := List.mem_map.mp he
  cases t <;> cases hd <;> rfl

theorem process_eq_processEach_iff_books :
    idServer.process ⟨id, id, ""⟩ idAdapter (fun _ _ => none) ([.create, .delete].map bookEvent) =
        idServer.processEach ⟨id, id, ""⟩ idAdapter (fun _ _ => none)
          ([.create, .delete].map bookEvent) ↔
      KeyedLog.Regroupable
        (idServer.operations idAdapter "books" ([.create, .delete].map bookEvent)) :=
  process_eq_processEach_iff idServer ⟨id, id, ""⟩ idAdapter "books" _ _ (by decide)
    (keyed_bookEvents _)

/-- Row 1 is deleted and created again: the batch ends without it. -/
theorem process_ne_processEach : ¬ ∀ (srv : SearchServer) (rt : Runtime) (a : MeilisearchAdapter)
    (indexName : String) (events : List Event) (w : Documents),
    (∀ e ∈ events, ∃ c, e = .cdc c ∧ a.indexName rt e = some indexName ∧
      (srv.operation a indexName e).isSome) →
    srv.process rt a w events = srv.processEach rt a w events := by
  intro h
  have hall : ∀ e ∈ [EventType.delete, EventType.create].map bookEvent, ∃ c, e = .cdc c ∧
      idAdapter.indexName ⟨id, id, ""⟩ e = some "books" ∧
      (idServer.operation idAdapter "books" e).isSome := by
    intro e he
    simp only [List.map_cons, List.map_nil, List.mem_cons, List.not_mem_nil, or_false] at he
    rcases he with rfl | rfl <;> exact ⟨_, rfl, by decide, by decide⟩
  have heq := h idServer ⟨id, id, ""⟩ idAdapter "books" _ (fun _ _ => none) hall
  exact absurd (congrFun (congrFun heq "books") "1") (by decide)

end MeiliBridge
