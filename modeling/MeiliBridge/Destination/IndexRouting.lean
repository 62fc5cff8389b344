import MeiliBridge.Destination.EventGroups
import MeiliBridge.Destination.SoftDeleteDelivery
import MeiliBridge.Pipeline.CdcCoordinator

/-!
# The index an event is written to

The orchestrator turns the configured tasks into one map from table names to indexes, and the
adapter looks every event up in it again, under the schema and the table that the event has by then.
Each task enters its index under its qualified name, if it has one, and under the bare name, where
it replaces what an earlier task has entered. Which task an event comes from is not looked at.

`routed_iff` says for which events the adapter comes back to the index of their task.
-/

set_option autoImplicit false

namespace MeiliBridge

open Interaction

/-- What is read here of a configured task. -/
structure SyncTaskConfig where
  table : String
  index : String
  stages : Stages

namespace PipelineOrchestrator

open MeilisearchAdapter (sanitizeIdentifier)

/-- `parse_table_identifier` -/
def parseTableIdentifier (table : String) : Option String × String :=
  let trimmed := Text.trim table
  if trimmed = "" then (none, "")
  else
    match Text.splitOnce '.' trimmed with
    | some (schema, name) =>
      let schemaClean := sanitizeIdentifier schema
      (if schemaClean = "" then none else some schemaClean, sanitizeIdentifier name)
    | none => (none, sanitizeIdentifier trimmed)

/-- `canonical_table_key`. Unlike the adapter's function of this name it makes no key of an empty
table name. -/
def canonicalTableKey (rt : Runtime) (schema : Option String) (table : String) : String :=
  if rt.toLowercase (sanitizeIdentifier table) = "" then ""
  else MeilisearchAdapter.canonicalTableKey rt schema table

/-- The keys a task enters its index under, in order. -/
def tableKeys (rt : Runtime) (task : SyncTaskConfig) : List String :=
  if task.index = "" ∨ task.table = "" then []
  else
    let (schemaOpt, tableName) := parseTableIdentifier task.table
    ((schemaOpt.map fun schema => canonicalTableKey rt (some schema) tableName).toList ++
      [canonicalTableKey rt none tableName]).filter (· ≠ "")

/-- `build_table_index_map` -/
def buildTableIndexMap (rt : Runtime) (syncTasks : List SyncTaskConfig) : Dict String :=
  syncTasks.foldl (fun map task =>
    (tableKeys rt task).foldl (fun map key => map.insert key task.index) map) ∅

/-- The task whose index the map holds under a key: the last that enters it. -/
def keyHolder (rt : Runtime) (syncTasks : List SyncTaskConfig) (key : String) :
    Option SyncTaskConfig :=
  (syncTasks.filter fun task => key ∈ tableKeys rt task).getLast?

theorem lookup_insertKeys (keys : List String) (index key : String) (map : Dict String) :
    (keys.foldl (fun map key => map.insert key index) map).lookup key =
      if key ∈ keys then some index else map.lookup key := by
  induction keys generalizing map with
  | nil => rfl
  | cons k keys ih =>
    rw [List.foldl_cons, ih]
    by_cases hmem : key ∈ keys
    · simp [hmem]
    · by_cases heq : key = k
      · subst heq
        simp [hmem]
      · simp [hmem, heq, AList.lookup_insert_ne heq]

theorem lookup_buildTableIndexMap (rt : Runtime) (syncTasks : List SyncTaskConfig) (key : String) :
    (buildTableIndexMap rt syncTasks).lookup key =
      (keyHolder rt syncTasks key).map SyncTaskConfig.index := by
  induction syncTasks using List.reverseRec with
  | nil => rfl
  | append_singleton syncTasks task ih =>
    have hlast : buildTableIndexMap rt (syncTasks ++ [task]) =
        (tableKeys rt task).foldl (fun map key => map.insert key task.index)
          (buildTableIndexMap rt syncTasks) := by
      rw [buildTableIndexMap, List.foldl_append]
      rfl
    rw [hlast, lookup_insertKeys, ih, keyHolder, keyHolder, List.filter_append]
    by_cases hmem : key ∈ tableKeys rt task <;> simp [hmem]

end PipelineOrchestrator

namespace MeilisearchAdapter

/-! ## The keys the adapter tries -/

/-- The keys of `resolve_index_name`, in the order of its lookups. -/
def triedKeys (rt : Runtime) (schema : Option String) (table fallback : String) : List String :=
  let (fallbackSchema, fallbackTable) := splitTableIdentifier fallback
  (schema.map fun s => canonicalTableKey rt (some s) table).toList ++
    canonicalTableKey rt none table ::
    (fallbackSchema.map fun s => canonicalTableKey rt (some s) fallbackTable).toList ++
    [canonicalTableKey rt none fallbackTable]

theorem findSome?_cons_or {α β : Type} (f : α → Option β) (x : α) (xs : List α) :
    (x :: xs).findSome? f = (f x).or (xs.findSome? f) := by
  rw [List.findSome?_cons]
  cases f x <;> rfl

theorem resolveIndexName_eq (rt : Runtime) (a : MeilisearchAdapter) (schema : Option String)
    (table fallback : String) :
    a.resolveIndexName rt schema table fallback =
      ((triedKeys rt schema table fallback).findSome? a.tableToIndex.lookup).getD fallback := by
  unfold resolveIndexName triedKeys
  cases hs : splitTableIdentifier fallback with
  | mk fallbackSchema fallbackTable =>
    cases schema <;> cases fallbackSchema <;> simp [findSome?_cons_or]

/-! ## The groups of a batch -/

/-- The event is among the events that `process_events` writes to the index of this name. -/
def WritesTo (rt : Runtime) (a : MeilisearchAdapter) (events : List Event) (event : Event)
    (name : String) : Prop :=
  ∃ indexEvents, (name, indexEvents) ∈ a.groupEvents rt events ∧ event ∈ indexEvents

/-- An event is written to the index it is routed to, and to no other. -/
theorem writesTo_iff {rt : Runtime} {a : MeilisearchAdapter} {events : List Event} {event : Event}
    {name : String} :
    WritesTo rt a events event name ↔ event ∈ events ∧ a.indexName rt event = some name := by
  simp only [WritesTo, mem_groupEvents]
  constructor
  · rintro ⟨indexEvents, ⟨rfl, -⟩, hevent⟩
    simpa [eventsOf] using hevent
  · intro h
    have hevent : event ∈ a.eventsOf rt name events := by simpa [eventsOf] using h
    exact ⟨_, ⟨rfl, List.ne_nil_of_mem hevent⟩, hevent⟩

/-! ## The calls of a group -/

end MeilisearchAdapter

/-- The index a call addresses. -/
def MeiliOp.indexName : MeiliOp → String
  | .getIndex indexName => indexName
  | .getOrCreateIndex indexName _ => indexName
  | .addDocuments indexName _ _ => indexName
  | .deleteDocuments indexName _ => indexName

namespace MeilisearchAdapter

theorem getOrCreateIndex_only (a : MeilisearchAdapter) (indexName : String)
    (primaryKey : Option String) :
    (a.getOrCreateIndex indexName primaryKey).Only fun o => o.indexName = indexName := by
  unfold getOrCreateIndex
  simp only [Prog.bind_eq]
  apply Prog.only_ite
  · exact Prog.only_bind (fun _ => Prog.only_lift) (Prog.only_perform.mpr rfl)
  · exact Prog.only_bind (fun _ => Prog.only_lift) (Prog.only_perform.mpr rfl)

theorem applyUpserts_only (a : MeilisearchAdapter) (bp : BatchProcessor) (indexName : String)
    (result : SyncResult) :
    (a.applyUpserts bp indexName result).Only fun o => o.indexName = indexName := by
  unfold applyUpserts
  apply Prog.only_ite
  · trivial
  · rw [Prog.bind_eq]
    apply Prog.only_bind
    · intro answer
      trivial
    · exact Prog.only_perform.mpr rfl

theorem applyDeletes_only (bp : BatchProcessor) (indexName : String) (result : SyncResult) :
    (applyDeletes bp indexName result).Only fun o => o.indexName = indexName := by
  unfold applyDeletes
  apply Prog.only_ite
  · trivial
  · rw [Prog.bind_eq]
    apply Prog.only_bind
    · intro answer
      trivial
    · exact Prog.only_perform.mpr rfl

/-- The calls made for a group of events all address the index of that group. -/
theorem processGroup_only (a : MeilisearchAdapter) (indexName : String) (indexEvents : List Event)
    (result : SyncResult) :
    (a.processGroup indexName indexEvents result).Only fun o => o.indexName = indexName := by
  unfold processGroup
  apply Prog.only_ite
  · trivial
  · rw [Prog.bind_eq]
    apply Prog.only_bind
    · intro batchResult
      trivial
    · unfold applyBatch
      apply Prog.only_ite
      · trivial
      · simp only [Prog.bind_eq]
        refine Prog.only_bind ?_ (a.getOrCreateIndex_only indexName _)
        intro _
        refine Prog.only_bind ?_ (a.applyUpserts_only _ indexName .new)
        intro result
        exact applyDeletes_only _ indexName result

end MeilisearchAdapter

/-! ## The events of a task -/

theorem processSingleEvent_cdc_kept {rt : Runtime} {st : Stages} {e : CdcEvent} {event : Event}
    (h : st.processSingleEvent rt (.cdc e) = .kept event) :
    (¬ ReachesHandlerDeleted rt st e ∧
      ∃ data, event = .cdc { e with table := st.renamed e.table, data }) ∨
    (ReachesHandlerDeleted rt st e ∧ event.isRecord = false) := by
  rw [st.processSingleEvent_eq] at h
  obtain ⟨e₀, hfilter, h⟩ := Outcome.andThen_eq_kept.mp h
  obtain rfl : e₀ = .cdc e := by
    rcases st.applyFilter_cases (.cdc e) with hkept | hdropped
    · exact Outcome.kept.inj (hfilter.symm.trans hkept)
    · cases hfilter.symm.trans hdropped
  obtain ⟨e₁, hrewrite, h⟩ := Outcome.andThen_eq_kept.mp h
  obtain ⟨data, rfl⟩ := Stages.rewrite_cdc_kept hrewrite
  cases hhandler : st.softDeleteHandler with
  | none =>
    rw [Stages.applySoftDelete, hhandler] at h
    refine .inl ⟨?_, data, (Outcome.kept.inj h).symm⟩
    rintro ⟨sd, c, hsd, -⟩
    cases hhandler.symm.trans hsd
  | some sd =>
    rw [Stages.applySoftDelete_cdc hhandler] at h
    split at h
    · next hdeletes =>
      refine .inr ⟨⟨sd, _, hhandler, hfilter, hrewrite, hdeletes⟩, ?_⟩
      rw [← Outcome.kept.inj h]
      rfl
    · next hdeletes =>
      refine .inl ⟨?_, data, (Outcome.kept.inj h).symm⟩
      rintro ⟨sd', c, hsd, -, hrewrite', hdeletes'⟩
      obtain rfl := Option.some.inj (hhandler.symm.trans hsd)
      obtain rfl := Event.cdc.inj (Outcome.kept.inj (hrewrite.symm.trans hrewrite'))
      exact hdeletes hdeletes'

/-- The task whose index the adapter finds for an event of this schema and table. -/
def foundHolder (rt : Runtime) (syncTasks : List SyncTaskConfig) (schema table : String) :
    Option SyncTaskConfig :=
  (MeilisearchAdapter.triedKeys rt (some schema) table table).findSome?
    (PipelineOrchestrator.keyHolder rt syncTasks)

/-- The first of the keys tried that any task has entered an index under is last entered by a task
with the same index as this one; or no task has entered any of them, and the table's new name is the
name of the index. -/
def RoutesTo (rt : Runtime) (syncTasks : List SyncTaskConfig) (task : SyncTaskConfig)
    (e : CdcEvent) : Prop :=
  ((foundHolder rt syncTasks e.schema (task.stages.renamed e.table)).map SyncTaskConfig.index).getD
    (task.stages.renamed e.table) = task.index

instance (rt : Runtime) (syncTasks : List SyncTaskConfig) (task : SyncTaskConfig) (e : CdcEvent) :
    Decidable (RoutesTo rt syncTasks task e) := inferInstanceAs (Decidable (_ = _))

theorem indexName_cdc {rt : Runtime} {syncTasks : List SyncTaskConfig} {a : MeilisearchAdapter}
    (ha : a.tableToIndex = PipelineOrchestrator.buildTableIndexMap rt syncTasks) (e : CdcEvent) :
    a.indexName rt (.cdc e) =
      some (((foundHolder rt syncTasks e.schema e.table).map
        SyncTaskConfig.index).getD e.table) := by
  have hlookup : a.tableToIndex.lookup =
      Option.map SyncTaskConfig.index ∘ PipelineOrchestrator.keyHolder rt syncTasks := by
    funext key
    rw [ha, PipelineOrchestrator.lookup_buildTableIndexMap]
    rfl
  rw [MeilisearchAdapter.indexName, MeilisearchAdapter.resolveIndexName_eq, hlookup,
    ← List.map_findSome?]
  rfl

/-- **An event is written to its task's index and to no other exactly when** the soft-delete handler
does not turn it into a deletion, and the keys its schema and its table's new name are looked up
under lead to a task with that index. -/
theorem routed_iff (rt : Runtime) (syncTasks : List SyncTaskConfig) (a : MeilisearchAdapter)
    (ha : a.tableToIndex = PipelineOrchestrator.buildTableIndexMap rt syncTasks)
    (task : SyncTaskConfig) (e : CdcEvent) (event : Event)
    (hkept : task.stages.processSingleEvent rt (.cdc e) = .kept event) (events : List Event)
    (hmem : event ∈ events) :
    (∀ name, a.WritesTo rt events event name ↔ name = task.index) ↔
      ¬ ReachesHandlerDeleted rt task.stages e ∧ RoutesTo rt syncTasks task e := by
  have hone : (∀ name, a.WritesTo rt events event name ↔ name = task.index) ↔
      a.indexName rt event = some task.index := by
    constructor
    · intro h
      exact (MeilisearchAdapter.writesTo_iff.mp ((h task.index).mpr rfl)).2
    · intro h name
      rw [MeilisearchAdapter.writesTo_iff, h, Option.some.injEq, and_iff_right hmem]
      exact eq_comm
  rw [hone]
  rcases processSingleEvent_cdc_kept hkept with ⟨hnot, data, rfl⟩ | ⟨hdeleted, hrecord⟩
  · rw [indexName_cdc ha, and_iff_right hnot, Option.some.injEq]
    exact Iff.rfl
  · rw [MeilisearchAdapter.indexName_of_not_isRecord hrecord]
    refine iff_of_false (by simp) ?_
    rintro ⟨hnot, -⟩
    exact hnot hdeleted

/-! ### A bare name beside a qualified one -/

/-- A task with no settings of its own. -/
def plainTask (table index : String) : SyncTaskConfig := ⟨table, index, ⟨none, none, none, none⟩⟩

def bareAndQualified : List SyncTaskConfig :=
  [plainTask "books" "all", plainTask "shop.books" "shop"]

/-- An adapter with the map of these tasks. -/
def configuredAdapter (rt : Runtime) (syncTasks : List SyncTaskConfig) : MeilisearchAdapter where
  primaryKey := some "id"
  autoCreateIndex := true
  tableToIndex := PipelineOrchestrator.buildTableIndexMap rt syncTasks
  hashOrder := id
  hashOrder_perm := List.Perm.refl

/-- A new book in the schema `shop`, which both tasks get. -/
def shopBook : CdcEvent where
  eventType := .create
  table := "books"
  schema := "shop"
  data := [("id", .number (.ofNat 1))]
  position := none

theorem not_always_routed :
    ¬ ∀ (rt : Runtime) (syncTasks : List SyncTaskConfig) (a : MeilisearchAdapter)
      (task : SyncTaskConfig) (e : CdcEvent) (event : Event) (events : List Event),
      (syncTasks.map SyncTaskConfig.table).Nodup →
      a.tableToIndex = PipelineOrchestrator.buildTableIndexMap rt syncTasks → task ∈ syncTasks →
      task.table ∈ Event.targets (.cdc e) →
      task.stages.processSingleEvent rt (.cdc e) = .kept event → event ∈ events →
      ∀ name, a.WritesTo rt events event name ↔ name = task.index := by
  intro h
  have hall := (h ⟨id, id, ""⟩ bareAndQualified (configuredAdapter ⟨id, id, ""⟩ bareAndQualified)
    (plainTask "books" "all") shopBook (.cdc shopBook) [.cdc shopBook] (by decide) rfl
    List.mem_cons_self (by decide) rfl (List.mem_singleton.mpr rfl) "all").mpr rfl
  have hindex := (MeilisearchAdapter.writesTo_iff.mp hall).2
  revert hindex
  decide

/-- The rule at work on the event that comes from the task with the qualified name. -/
theorem routed_iff_shop :
    RoutesTo ⟨id, id, ""⟩ bareAndQualified (plainTask "shop.books" "shop") shopBook ∧
      ∀ name, (configuredAdapter ⟨id, id, ""⟩ bareAndQualified).WritesTo ⟨id, id, ""⟩
        [.cdc shopBook] (.cdc shopBook) name ↔ name = "shop" := by
  refine ⟨by decide, (routed_iff ⟨id, id, ""⟩ bareAndQualified
    (configuredAdapter ⟨id, id, ""⟩ bareAndQualified) rfl (plainTask "shop.books" "shop") shopBook
    (.cdc shopBook) rfl [.cdc shopBook] (List.mem_singleton.mpr rfl)).mpr ⟨?_, ?_⟩⟩
  · rintro ⟨sd, c, hsd, -⟩
    cases hsd
  · decide

end MeiliBridge
