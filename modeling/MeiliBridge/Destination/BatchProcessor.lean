import Mathlib.Data.List.Induction
import MeiliBridge.Models.Event

/-!
# The batch processor

`BatchProcessor` sorts the events of one index into documents to add and document ids to delete.
`processAll_eq` is what a whole list of events leaves in it: each event contributes at most one
document or one id, in order.
-/

set_option autoImplicit false

namespace MeiliBridge

structure BatchProcessor where
  documentsToUpsert : List Value
  documentsToDelete : List String
  primaryKey : Option String
  deriving DecidableEq

namespace BatchProcessor

def new (primaryKey : Option String) : BatchProcessor := ⟨[], [], primaryKey⟩

def isEmpty (bp : BatchProcessor) : Bool :=
  bp.documentsToUpsert.isEmpty && bp.documentsToDelete.isEmpty

def len (bp : BatchProcessor) : Nat :=
  bp.documentsToUpsert.length + bp.documentsToDelete.length

def pushUpsert (bp : BatchProcessor) (document : Value) : BatchProcessor :=
  { bp with documentsToUpsert := bp.documentsToUpsert ++ [document] }

def pushDelete (bp : BatchProcessor) (id : String) : BatchProcessor :=
  { bp with documentsToDelete := bp.documentsToDelete ++ [id] }

/-- The id a primary-key value is deleted by: its text, or the digits of an `i64`. -/
def deleteId (pkValue : Value) : Option String :=
  match pkValue.asStr with
  | some id => some id
  | none => pkValue.asI64.map toString

/-- `process_cdc_event` -/
def processCdcEvent (bp : BatchProcessor) (event : CdcEvent) : Result BatchProcessor :=
  match event.eventType with
  | .create | .update => .ok (bp.pushUpsert (.object event.data))
  | .delete =>
    match bp.primaryKey with
    | some pkField =>
      match event.data.get pkField with
      | some pkValue =>
        match deleteId pkValue with
        | some id => .ok (bp.pushDelete id)
        -- logged as a warning, and the event is gone
        | none => .ok bp
      | none =>
        .error (.meilisearch s!"Missing primary key field '{pkField}' in delete event")
    | none => .error (.meilisearch "No primary key configured for delete operations")
  | .truncate | .schema => .ok bp

/-- `process_event` -/
def processEvent (bp : BatchProcessor) : Event → Result BatchProcessor
  | .cdc cdcEvent => bp.processCdcEvent cdcEvent
  | .fullSync _ data => .ok (bp.pushUpsert data)
  | _ => .ok bp

/-- One round of the loop over the events of an index: an error leaves the batch as it is and is
recorded. -/
def absorb (bp : BatchProcessor) (errors : List MeiliBridgeError) (event : Event) :
    BatchProcessor × List MeiliBridgeError :=
  match bp.processEvent event with
  | .ok bp => (bp, errors)
  | .error e => (bp, errors ++ [e])

def processAll (bp : BatchProcessor) (events : List Event) :
    BatchProcessor × List MeiliBridgeError :=
  events.foldl (fun (bp, errors) event => bp.absorb errors event) (bp, [])

/-! ## What one event contributes -/

/-- The document an event adds. -/
def upsertOf : Event → Option Value
  | .cdc e =>
    match e.eventType with
    | .create | .update => some (.object e.data)
    | _ => none
  | .fullSync _ data => some data
  | _ => none

/-- The id an event deletes. -/
def deleteOf (primaryKey : Option String) : Event → Option String
  | .cdc e =>
    match e.eventType with
    | .delete => primaryKey.bind fun pkField => (e.data.get pkField).bind deleteId
    | _ => none
  | _ => none

/-- The batch with the contributions of a list of events appended. -/
def extend (bp : BatchProcessor) (events : List Event) : BatchProcessor where
  documentsToUpsert := bp.documentsToUpsert ++ events.filterMap upsertOf
  documentsToDelete := bp.documentsToDelete ++ events.filterMap (deleteOf bp.primaryKey)
  primaryKey := bp.primaryKey

theorem extend_singleton (bp : BatchProcessor) (event : Event) :
    bp.extend [event] = {
      documentsToUpsert := bp.documentsToUpsert ++ (upsertOf event).toList
      documentsToDelete := bp.documentsToDelete ++ (deleteOf bp.primaryKey event).toList
      primaryKey := bp.primaryKey } := by
  cases hu : upsertOf event <;> cases hd : deleteOf bp.primaryKey event <;> simp [extend, hu, hd]

theorem absorb_delete {bp : BatchProcessor} {e : CdcEvent} (h : e.eventType = .delete)
    (errors : List MeiliBridgeError) : (bp.absorb errors (.cdc e)).1 = bp.extend [.cdc e] := by
  obtain ⟨upserts, deletes, primaryKey⟩ := bp
  rw [extend_singleton]
  simp only [absorb, processEvent, processCdcEvent, upsertOf, deleteOf, h]
  cases primaryKey with
  | none => simp
  | some pkField =>
    cases hk : e.data.get pkField with
    | none => simp [hk]
    | some pkValue => cases hd : deleteId pkValue <;> simp [hk, hd, pushDelete]

theorem absorb_fst (bp : BatchProcessor) (errors : List MeiliBridgeError) (event : Event) :
    (bp.absorb errors event).1 = bp.extend [event] := by
  cases event with
  | cdc e =>
    cases he : e.eventType with
    | delete => exact absorb_delete he errors
    | _ =>
      rw [extend_singleton]
      simp [absorb, processEvent, processCdcEvent, upsertOf, deleteOf, pushUpsert, he]
  | _ =>
    rw [extend_singleton]
    simp [absorb, processEvent, upsertOf, deleteOf, pushUpsert]

theorem extend_append (bp : BatchProcessor) (xs ys : List Event) :
    bp.extend (xs ++ ys) = (bp.extend xs).extend ys := by
  simp [extend]

theorem processAll_snoc (bp : BatchProcessor) (events : List Event) (e : Event) :
    bp.processAll (events ++ [e]) =
      (bp.processAll events).1.absorb (bp.processAll events).2 e := by
  simp [processAll, List.foldl_append]

/-- **What a list of events leaves in the batch**: the documents it adds and the ids it deletes,
each in order; which of the two came first is forgotten. -/
theorem processAll_fst (bp : BatchProcessor) (events : List Event) :
    (bp.processAll events).1 = bp.extend events := by
  induction events using List.reverseRec with
  | nil => simp [processAll, extend]
  | append_singleton events e ih => rw [processAll_snoc, absorb_fst, ih, extend_append]

/-- The error an event ends with. -/
def errorOf (primaryKey : Option String) (event : Event) : Option MeiliBridgeError :=
  match (new primaryKey).processEvent event with
  | .ok _ => none
  | .error e => some e

/-- The error depends on the key field alone, not on what the batch holds. -/
theorem absorb_snd (bp : BatchProcessor) (errors : List MeiliBridgeError) (event : Event) :
    (bp.absorb errors event).2 = errors ++ (errorOf bp.primaryKey event).toList := by
  obtain ⟨upserts, deletes, primaryKey⟩ := bp
  cases event with
  | cdc e =>
    cases he : e.eventType with
    | delete =>
      simp only [absorb, errorOf, new, processEvent, processCdcEvent, he]
      cases primaryKey with
      | none => rfl
      | some pkField =>
        cases hk : e.data.get pkField with
        | none => simp [hk]
        | some pkValue => cases hd : deleteId pkValue <;> simp [hk, hd]
    | _ => simp [absorb, errorOf, processEvent, processCdcEvent, he]
  | _ => simp [absorb, errorOf, processEvent]

theorem processAll_snd (bp : BatchProcessor) (events : List Event) :
    (bp.processAll events).2 = events.filterMap (errorOf bp.primaryKey) := by
  induction events using List.reverseRec with
  | nil => rfl
  | append_singleton events e ih =>
    have hkey : (bp.processAll events).1.primaryKey = bp.primaryKey := by
      rw [processAll_fst]
      rfl
    rw [processAll_snoc, absorb_snd, ih, hkey, List.filterMap_append]
    cases he : errorOf bp.primaryKey e <;> simp [he]

end BatchProcessor

end MeiliBridge
