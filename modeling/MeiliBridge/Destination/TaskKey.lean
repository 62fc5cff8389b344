import MeiliBridge.Destination.DeleteFate
import MeiliBridge.Destination.IndexRouting

/-!
# The key a delete is carried out by

The documents of a task are imported under the primary key of the task. A delete is carried out
under the key that the adapter keeps for the index: a fixed one for the indexes `users`, `products`
and `orders`, the one of the Meilisearch configuration for any other. `deletesBy_iff` says when the
two come to the same document.

What `process_events` deletes is read off the server's log: `deletions_processEvents` is every
delete call of a run.
-/

set_option autoImplicit false

namespace MeiliBridge

open Interaction

/-- A configured task with the key its documents are imported under. -/
structure KeyedTask extends SyncTaskConfig where
  primaryKey : String

namespace CallLog

/-- The delete calls of a log: the index and the ids of each. -/
def deletions (log : CallLog) : List (String × List String) :=
  log.filterMap fun call =>
    match call.1 with
    | .deleteDocuments indexName ids => some (indexName, ids)
    | _ => none

end CallLog

namespace MeilisearchAdapter

open CallLog

/-! ## The delete calls of a run -/

/-- The delete call for these ids: none for no ids. -/
def deletion (indexName : String) (ids : List String) : List (String × List String) :=
  if ids = [] then [] else [(indexName, ids)]

theorem mem_deletion {indexName name : String} {ids ids' : List String} :
    (name, ids') ∈ deletion indexName ids ↔ name = indexName ∧ ids' = ids ∧ ids' ≠ [] := by
  unfold deletion
  split
  · next hnil =>
    subst hnil
    simp
  · next hne =>
    simp only [List.mem_singleton, Prod.mk.injEq]
    constructor
    · rintro ⟨rfl, rfl⟩
      exact ⟨rfl, rfl, hne⟩
    · rintro ⟨rfl, rfl, -⟩
      exact ⟨rfl, rfl⟩

/-- The delete call for a group of events. -/
def groupDeletion (a : MeilisearchAdapter) (indexName : String) (indexEvents : List Event) :
    List (String × List String) :=
  deletion indexName (indexEvents.filterMap (BatchProcessor.deleteOf (a.batchPrimaryKey indexName)))

/-- A program that issues these delete calls, if it ends well. -/
def Deletes {α : Type} (calls : List (String × List String)) (p : MeiliProg α) : Prop :=
  ∀ log, wp recorder (fun _ => True) (fun _ => True) p
    (fun r log' => ∀ x, r = .ok x → log'.deletions = log.deletions ++ calls) log

theorem deletes_pure {α : Type} (x : α) : Deletes [] (pure x : MeiliProg α) := by
  intro log
  exact ⟨trivial, fun _ _ => (List.append_nil _).symm⟩

theorem Deletes.bind {α β : Type} {calls calls' : List (String × List String)} {p : MeiliProg α}
    {f : α → MeiliProg β} (hp : Deletes calls p) (hf : ∀ x, Deletes calls' (f x)) :
    Deletes (calls ++ calls') (p.bind f) := by
  intro log
  apply (hp log).bind
  · intro x log₁ _ h₁
    apply (hf x log₁).mono (fun _ _ => trivial)
    intro r log₂ _ h₂ y hr
    rw [h₂ y hr, h₁ x rfl, List.append_assoc]
  · intro e log₁ _ _ y h
    cases h

theorem deletes_getOrCreateIndex (a : MeilisearchAdapter) (indexName : String)
    (primaryKey : Option String) : Deletes [] (a.getOrCreateIndex indexName primaryKey) := by
  intro log
  unfold getOrCreateIndex
  cases a.autoCreateIndex with
  | true =>
    refine ⟨trivial, ?_⟩
    intro answer _
    exact ⟨trivial, fun _ _ => by simp [recorder, deletions]⟩
  | false =>
    refine ⟨trivial, ?_⟩
    intro answer _
    exact ⟨trivial, fun _ _ => by simp [recorder, deletions]⟩

theorem deletes_applyUpserts (a : MeilisearchAdapter) (bp : BatchProcessor) (indexName : String)
    (result : SyncResult) : Deletes [] (a.applyUpserts bp indexName result) := by
  unfold applyUpserts
  split
  · exact deletes_pure result
  · intro log
    refine ⟨trivial, ?_⟩
    intro answer _
    exact ⟨trivial, fun _ _ => by simp [recorder, deletions]⟩

theorem deletes_applyDeletes (bp : BatchProcessor) (indexName : String) (result : SyncResult) :
    Deletes (deletion indexName bp.documentsToDelete) (applyDeletes bp indexName result) := by
  unfold applyDeletes deletion
  split
  · exact deletes_pure result
  · intro log
    refine ⟨trivial, ?_⟩
    intro answer _
    exact ⟨trivial, fun _ _ => by simp [recorder, deletions]⟩

theorem deletes_applyBatch (a : MeilisearchAdapter) (bp : BatchProcessor) (indexName : String)
    (primaryKey : Option String) :
    Deletes (deletion indexName bp.documentsToDelete)
      (a.applyBatch bp indexName primaryKey) := by
  unfold applyBatch
  split
  · next hempty =>
    simp only [BatchProcessor.isEmpty, Bool.and_eq_true, List.isEmpty_iff] at hempty
    rw [hempty.2]
    exact deletes_pure SyncResult.new
  · exact (deletes_getOrCreateIndex a indexName primaryKey).bind fun _ =>
      (deletes_applyUpserts a bp indexName .new).bind (deletes_applyDeletes bp indexName)

theorem deletes_processGroup (a : MeilisearchAdapter) (indexName : String)
    (indexEvents : List Event) (result : SyncResult) :
    Deletes (a.groupDeletion indexName indexEvents)
      (a.processGroup indexName indexEvents result) := by
  have hids : ((BatchProcessor.new (a.batchPrimaryKey indexName)).processAll
      indexEvents).1.documentsToDelete =
      indexEvents.filterMap (BatchProcessor.deleteOf (a.batchPrimaryKey indexName)) := by
    rw [BatchProcessor.processAll_fst]
    rfl
  unfold groupDeletion
  rw [← hids]
  apply a.processGroup_cases indexName indexEvents result
    (P := fun batch => Deletes (deletion indexName batch.1.documentsToDelete))
  · intro bp errors hempty
    simp only [BatchProcessor.isEmpty, Bool.and_eq_true, List.isEmpty_iff] at hempty
    show Deletes (deletion indexName bp.documentsToDelete) _
    rw [hempty.2]
    exact deletes_pure _
  · intro bp errors
    show Deletes (deletion indexName bp.documentsToDelete) _
    rw [← List.append_nil (deletion _ _)]
    exact (deletes_applyBatch a bp indexName _).bind fun batchResult => deletes_pure _

theorem deletes_processGroups (a : MeilisearchAdapter) (groups : List (String × List Event))
    (result : SyncResult) :
    Deletes (groups.flatMap fun group => a.groupDeletion group.1 group.2)
      (a.processGroups groups result) := by
  induction groups generalizing result with
  | nil => exact deletes_pure result
  | cons group groups ih =>
    rw [List.flatMap_cons]
    exact (deletes_processGroup a group.1 group.2 result).bind ih

section Runs

variable {rt : Runtime} {a : MeilisearchAdapter} {events : List Event}

/-- **The delete calls of `process_events`**: one for each index some event deletes in, with the
ids of these events in order. -/
theorem deletions_processEvents {result : SyncResult} {log : CallLog}
    (hruns : MeiliProg.Ends (a.processEvents rt events) [] (.ok result) log) (indexName : String)
    (ids : List String) :
    (indexName, ids) ∈ log.deletions ↔ ids ≠ [] ∧
      ids = (a.eventsOf rt indexName events).filterMap
        (BatchProcessor.deleteOf (a.batchPrimaryKey indexName)) := by
  have hdeletes : Deletes ((a.iterate (a.groupEvents rt events)).flatMap fun group =>
      a.groupDeletion group.1 group.2) (a.processEvents rt events) := by
    rw [← List.append_nil (List.flatMap _ _)]
    exact (deletes_processGroups a _ .new).bind fun result => deletes_pure _
  have hlog : log.deletions = _ := (wp_iff.mp (hdeletes [])).2 _ _ hruns result rfl
  rw [hlog]
  show (indexName, ids) ∈ List.flatMap _ _ ↔ _
  simp only [List.mem_flatMap, groupDeletion, mem_deletion]
  constructor
  · rintro ⟨⟨name, indexEvents⟩, hmem, rfl, hids, hne⟩
    obtain ⟨rfl, -⟩ := mem_iterate.mp hmem
    exact ⟨hne, hids⟩
  · rintro ⟨hne, hids⟩
    refine ⟨(indexName, a.eventsOf rt indexName events), mem_iterate.mpr ⟨rfl, ?_⟩, rfl, hids, hne⟩
    intro hnil
    rw [hnil] at hids
    exact hne hids

/-- A delete of the event adds its id to the call for its index. -/
theorem deleteIds_append (indexName : String) (before after : List Event) (e : Event) :
    (a.eventsOf rt indexName (before ++ e :: after)).filterMap
        (BatchProcessor.deleteOf (a.batchPrimaryKey indexName)) =
      (a.eventsOf rt indexName before).filterMap
          (BatchProcessor.deleteOf (a.batchPrimaryKey indexName)) ++
        (a.eventsOf rt indexName [e]).filterMap
          (BatchProcessor.deleteOf (a.batchPrimaryKey indexName)) ++
        (a.eventsOf rt indexName after).filterMap
          (BatchProcessor.deleteOf (a.batchPrimaryKey indexName)) := by
  rw [List.append_cons]
  simp only [eventsOf, List.filter_append, List.filterMap_append]

end Runs

/-- Among any other events, and whatever the server answers, a call of `process_events` that ends
well deletes this id from this index, as what this event adds to the ids of the others. -/
def DeletesBy (rt : Runtime) (a : MeilisearchAdapter) (indexName id : String) (e : CdcEvent) :
    Prop :=
  ∀ before after result log,
    MeiliProg.Ends (a.processEvents rt (before ++ .cdc e :: after)) [] (.ok result) log →
      ∃ rest, (indexName, (a.batchOf rt indexName before).1.documentsToDelete ++ id :: rest) ∈
        log.deletions

/-- The event is routed to the index, and its id under the key of the index is this one. -/
theorem deletesBy_iff_deleteOf {rt : Runtime} {a : MeilisearchAdapter} {indexName id : String}
    {e : CdcEvent} :
    a.DeletesBy rt indexName id e ↔ a.indexName rt (.cdc e) = some indexName ∧
      BatchProcessor.deleteOf (a.batchPrimaryKey indexName) (.cdc e) = some id := by
  have hbatch (before : List Event) : (a.batchOf rt indexName before).1.documentsToDelete =
      (a.eventsOf rt indexName before).filterMap
        (BatchProcessor.deleteOf (a.batchPrimaryKey indexName)) := by
    rw [batchOf_eq, BatchProcessor.processAll_fst]
    rfl
  constructor
  · intro h
    obtain ⟨result, log, hruns⟩ := exists_result rt a ([] ++ [.cdc e])
    obtain ⟨rest, hmem⟩ := h [] [] result log hruns
    have hids := ((deletions_processEvents hruns indexName _).mp hmem).2
    rw [hbatch] at hids
    by_cases hindex : a.indexName rt (.cdc e) = some indexName
    · refine ⟨hindex, ?_⟩
      cases hdelete : BatchProcessor.deleteOf (a.batchPrimaryKey indexName) (.cdc e) with
      | none => simp [eventsOf, hindex, hdelete] at hids
      | some id' =>
        simp only [eventsOf, List.nil_append, List.filter_nil, List.filterMap_nil,
          List.filter_cons, hindex, decide_true, if_true, List.filterMap_cons, hdelete,
          List.cons.injEq] at hids
        rw [hids.1]
    · simp [eventsOf, hindex] at hids
  · rintro ⟨hindex, hdelete⟩ before after result log hruns
    refine ⟨(a.eventsOf rt indexName after).filterMap
      (BatchProcessor.deleteOf (a.batchPrimaryKey indexName)), ?_⟩
    rw [deletions_processEvents hruns, deleteIds_append, hbatch]
    refine ⟨by simp, ?_⟩
    simp [eventsOf, hindex, hdelete]

end MeilisearchAdapter

/-! ## The key of the task -/

namespace KeyedTask

/-- The id of a document whose key holds this value: a text, or the digits of an integer. -/
def keyId : Value → Option String
  | .string id => some id
  | .number (.posInt n) => some (toString n.toNat)
  | .number (.negInt n) => some (toString n.toInt)
  | _ => none

/-- The id that the event has under the key of the task. -/
def documentId (task : KeyedTask) (e : CdcEvent) : Option String :=
  (e.data.get task.primaryKey).bind keyId

/-- Under the key that the adapter keeps for the index the event has this id as well: as a text, or
as the digits of an `i64`. -/
def SameId (a : MeilisearchAdapter) (indexName id : String) (e : CdcEvent) : Prop :=
  ∃ pkField pkValue, a.batchPrimaryKey indexName = some pkField ∧
    e.data.get pkField = some pkValue ∧
    (pkValue.asStr = some id ∨ ∃ n, pkValue.asI64 = some n ∧ toString n = id)

theorem deleteId_eq_some {pkValue : Value} {id : String} :
    BatchProcessor.deleteId pkValue = some id ↔
      pkValue.asStr = some id ∨ ∃ n, pkValue.asI64 = some n ∧ toString n = id := by
  cases pkValue with
  | string s => simp [BatchProcessor.deleteId, Value.asStr, Value.asI64]
  | number n => simp [BatchProcessor.deleteId, Value.asStr, Value.asI64]
  | _ => simp [BatchProcessor.deleteId, Value.asStr, Value.asI64]

theorem deleteOf_delete {e : CdcEvent} (he : e.eventType = .delete) (a : MeilisearchAdapter)
    (indexName id : String) :
    BatchProcessor.deleteOf (a.batchPrimaryKey indexName) (.cdc e) = some id ↔
      SameId a indexName id e := by
  simp only [BatchProcessor.deleteOf, he, Option.bind_eq_some_iff, deleteId_eq_some, SameId]
  constructor
  · rintro ⟨pkField, hkey, pkValue, hget, hid⟩
    exact ⟨pkField, pkValue, hkey, hget, hid⟩
  · rintro ⟨pkField, pkValue, hkey, hget, hid⟩
    exact ⟨pkField, hkey, pkValue, hget, hid⟩

end KeyedTask

open KeyedTask in
/-- **A delete takes the document of its id out of the task's index exactly when** the event is
looked up under that index, and has the same id under the key which the adapter keeps for it. -/
theorem task_deletes_iff (rt : Runtime) (tasks : List KeyedTask) (a : MeilisearchAdapter)
    (ha : a.tableToIndex =
      PipelineOrchestrator.buildTableIndexMap rt (tasks.map KeyedTask.toSyncTaskConfig))
    (task : KeyedTask) (e : CdcEvent) (he : e.eventType = .delete) (id : String) :
    task.documentId e = some id →
      (a.DeletesBy rt task.index id e ↔
        ((foundHolder rt (tasks.map KeyedTask.toSyncTaskConfig) e.schema e.table).map
          SyncTaskConfig.index).getD e.table = task.index ∧ SameId a task.index id e) := by
  intro _
  rw [MeilisearchAdapter.deletesBy_iff_deleteOf, deleteOf_delete he, indexName_cdc ha,
    Option.some.injEq]

/-! ### A key of another name than the global one -/

def isbnTask : KeyedTask := { plainTask "books" "books" with primaryKey := "isbn" }

/-- The adapter of this task, with the global key `id`. -/
def isbnAdapter : MeilisearchAdapter :=
  configuredAdapter ⟨id, id, ""⟩ [isbnTask.toSyncTaskConfig]

/-- A deletion that brings the key of the row and nothing else. -/
def isbnDelete : CdcEvent where
  eventType := .delete
  table := "books"
  schema := "public"
  data := [("isbn", .string "x1")]
  position := none

theorem task_not_always_deletes : ¬ ∀ (rt : Runtime) (tasks : List KeyedTask)
    (a : MeilisearchAdapter) (task : KeyedTask) (e : CdcEvent) (id : String),
    a.tableToIndex =
        PipelineOrchestrator.buildTableIndexMap rt (tasks.map KeyedTask.toSyncTaskConfig) →
      task ∈ tasks → task.table ∈ Event.targets (.cdc e) → e.eventType = .delete →
      task.documentId e = some id → a.DeletesBy rt task.index id e := by
  intro h
  have hdeletes := h ⟨id, id, ""⟩ [isbnTask] isbnAdapter isbnTask isbnDelete "x1" rfl
    List.mem_cons_self (by decide) rfl rfl
  rw [MeilisearchAdapter.deletesBy_iff_deleteOf] at hdeletes
  cases hdeletes.2

/-- Without the field `id` there is nothing to delete by. -/
theorem task_deletes_iff_isbn :
    ¬ isbnAdapter.DeletesBy ⟨id, id, ""⟩ isbnTask.index "x1" isbnDelete := by
  rw [task_deletes_iff ⟨id, id, ""⟩ [isbnTask] isbnAdapter rfl isbnTask isbnDelete rfl "x1" rfl]
  rintro ⟨-, pkField, pkValue, hkey, hget, -⟩
  cases hkey
  cases hget

end MeiliBridge
