import MeiliBridge.Config
import MeiliBridge.Lib.Prog
import MeiliBridge.Destination.BatchProcessor

/-!
# The Meilisearch adapter

`MeilisearchAdapter::process_events` and what it calls, as a program over the calls it makes to
the search server. The adapter is taken after `connect`, which is where `get_client` finds its
client.
-/

set_option autoImplicit false

namespace MeiliBridge

open Interaction

structure SyncResult where
  successCount : Nat
  failedCount : Nat
  lastPosition : Option Position
  errors : List String
  deriving DecidableEq

namespace SyncResult

def new : SyncResult := ⟨0, 0, none, []⟩

def addFailure (result : SyncResult) (error : String) : SyncResult :=
  { result with failedCount := result.failedCount + 1, errors := result.errors ++ [error] }

/-- The counts and errors of a batch added to those of the call. -/
def absorb (result batchResult : SyncResult) : SyncResult where
  successCount := result.successCount + batchResult.successCount
  failedCount := result.failedCount + batchResult.failedCount
  lastPosition := result.lastPosition
  errors := result.errors ++ batchResult.errors

end SyncResult

/-- The calls made to the search server. -/
inductive MeiliOp where
  | getIndex (indexName : String)
  | getOrCreateIndex (indexName : String) (primaryKey : Option String)
  | addDocuments (indexName : String) (documents : List Value) (primaryKey : Option String)
  | deleteDocuments (indexName : String) (documentIds : List String)
  deriving DecidableEq

/-- A program of the adapter: every call answers a `Result<()>`. -/
abbrev MeiliProg (α : Type) := Prog MeiliOp (fun _ => Result Unit) MeiliBridgeError α

structure MeilisearchAdapter where
  primaryKey : Option String
  autoCreateIndex : Bool
  tableToIndex : Dict String
  /-- The order in which the map of events by index is iterated over. -/
  hashOrder : List String → List String
  hashOrder_perm : ∀ names, (hashOrder names).Perm names

namespace MeilisearchAdapter

/-- The default primary keys for known tables. -/
def tablePrimaryKeys : Dict String :=
  AList.insert "orders" "id" (AList.insert "products" "sku" (AList.insert "users" "id" ∅))

/-! ## Index names -/

/-- `sanitize_identifier` -/
def sanitizeIdentifier (identifier : String) : String := Text.trimMatches '"' (Text.trim identifier)

/-- `split_table_identifier` -/
def splitTableIdentifier (table : String) : Option String × String :=
  let trimmed := Text.trim table
  match Text.splitOnce '.' trimmed with
  | some (schema, name) => (some (sanitizeIdentifier schema), sanitizeIdentifier name)
  | none => (none, sanitizeIdentifier trimmed)

/-- `canonical_table_key` -/
def canonicalTableKey (rt : Runtime) (schema : Option String) (table : String) : String :=
  let tablePart := rt.toLowercase (sanitizeIdentifier table)
  match schema with
  | some schema =>
    if Text.trim schema ≠ "" then
      rt.toLowercase (sanitizeIdentifier schema) ++ "." ++ tablePart
    else tablePart
  | none => tablePart

/-- `resolve_index_name` -/
def resolveIndexName (rt : Runtime) (a : MeilisearchAdapter) (schema : Option String)
    (table fallback : String) : String :=
  let find := fun (schema : Option String) (table : String) =>
    a.tableToIndex.lookup (canonicalTableKey rt schema table)
  let (fallbackSchema, fallbackTable) := splitTableIdentifier fallback
  ((schema.bind fun s => find (some s) table).or <|
    (find none table).or <|
      (fallbackSchema.bind fun s => find (some s) fallbackTable).or <|
        find none fallbackTable).getD fallback

/-- The index an event is routed to; events of other kinds are passed over. -/
def indexName (rt : Runtime) (a : MeilisearchAdapter) : Event → Option String
  | .cdc e => some (a.resolveIndexName rt (some e.schema) e.table e.table)
  | .fullSync table _ =>
    let (schema, tableName) := splitTableIdentifier table
    some (a.resolveIndexName rt schema tableName table)
  | _ => none

/-- `entry(index_name).or_default().push(event)` -/
def pushEvent (indexName : String) (event : Event) :
    List (String × List Event) → List (String × List Event)
  | [] => [(indexName, [event])]
  | (name, events) :: rest =>
    if name = indexName then (name, events ++ [event]) :: rest
    else (name, events) :: pushEvent indexName event rest

/-- The events grouped by index, and the last position of a CDC event among them. -/
def groupEvents (rt : Runtime) (a : MeilisearchAdapter) (events : List Event) :
    List (String × List Event) :=
  events.foldl (fun groups event =>
    match a.indexName rt event with
    | some name => pushEvent name event groups
    | none => groups) []

def lastPosition (events : List Event) : Option Position :=
  (events.filterMap fun event =>
    match event with
    | .cdc e => e.position
    | _ => none).getLast?

/-! ## Applying a batch -/

/-- `get_or_create_index` -/
def getOrCreateIndex (a : MeilisearchAdapter) (indexName : String) (primaryKey : Option String) :
    MeiliProg Unit := do
  let found ←
    if a.autoCreateIndex then
      .perform (.getOrCreateIndex indexName (primaryKey.or a.primaryKey))
    else .perform (.getIndex indexName)
  .lift found

/-- The outcome of one call that stands for `count` documents. -/
def record (result : SyncResult) (label : String) (count : Nat) : Result Unit → SyncResult
  | .ok () => { result with successCount := result.successCount + count }
  | .error e =>
    { result with failedCount := result.failedCount + count }.addFailure
      s!"{label} error: {e.display}"

/-- The upserts of `apply_batch` -/
def applyUpserts (a : MeilisearchAdapter) (bp : BatchProcessor) (indexName : String)
    (result : SyncResult) : MeiliProg SyncResult :=
  if bp.documentsToUpsert = [] then pure result
  else do
    let answer ← .perform (.addDocuments indexName bp.documentsToUpsert a.primaryKey)
    pure (record result "Upsert" bp.documentsToUpsert.length answer)

/-- The deletes of `apply_batch` -/
def applyDeletes (bp : BatchProcessor) (indexName : String) (result : SyncResult) :
    MeiliProg SyncResult :=
  if bp.documentsToDelete = [] then pure result
  else do
    let answer ← .perform (.deleteDocuments indexName bp.documentsToDelete)
    pure (record result "Delete" bp.documentsToDelete.length answer)

/-- `apply_batch` -/
def applyBatch (a : MeilisearchAdapter) (bp : BatchProcessor) (indexName : String)
    (primaryKey : Option String) : MeiliProg SyncResult :=
  if bp.isEmpty then pure .new
  else do
    a.getOrCreateIndex indexName primaryKey
    let result ← a.applyUpserts bp indexName .new
    applyDeletes bp indexName result

/-! ## `process_events` -/

/-- The primary key the events of an index are batched with. -/
def batchPrimaryKey (a : MeilisearchAdapter) (indexName : String) : Option String :=
  (tablePrimaryKeys.lookup indexName).or a.primaryKey

/-- The round of the loop for one index. -/
def processGroup (a : MeilisearchAdapter) (indexName : String) (indexEvents : List Event)
    (result : SyncResult) : MeiliProg SyncResult :=
  let primaryKey := a.batchPrimaryKey indexName
  let (bp, errors) := (BatchProcessor.new primaryKey).processAll indexEvents
  let result := (errors.map MeiliBridgeError.display).foldl SyncResult.addFailure result
  if bp.isEmpty then pure result
  else do
    let batchResult ← a.applyBatch bp indexName primaryKey
    pure (result.absorb batchResult)

def processGroups (a : MeilisearchAdapter) :
    List (String × List Event) → SyncResult → MeiliProg SyncResult
  | [], result => pure result
  | (indexName, indexEvents) :: rest, result => do
    let result ← a.processGroup indexName indexEvents result
    a.processGroups rest result

/-- The groups in the order of the map's iteration. -/
def iterate (a : MeilisearchAdapter) (groups : List (String × List Event)) :
    List (String × List Event) :=
  (a.hashOrder (groups.map (·.1))).filterMap fun name =>
    (groups.lookup name).map fun events => (name, events)

/-- `process_events` -/
def processEvents (rt : Runtime) (a : MeilisearchAdapter) (events : List Event) :
    MeiliProg SyncResult := do
  let result ← a.processGroups (a.iterate (a.groupEvents rt events)) .new
  pure { result with lastPosition := lastPosition events }

end MeilisearchAdapter

end MeiliBridge
