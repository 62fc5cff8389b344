import MeiliBridge.Delivery.World

/-!
# Failed events on their way to the dead letter queue

The conversion `convert_to_models_event` and the loop by which both batch paths hand events to the
queue: the i-th error of a response is filed under the i-th event of the batch.
-/

set_option autoImplicit false

namespace MeiliBridge

open Interaction

/-- `as_object().unwrap()` -/
def unwrapObject (v : Value) : Except Fault Fields :=
  match v.asObject with
  | some fields => .ok fields
  | none => .error .panic

/-- The type, source and data of `convert_to_models_event`. -/
def modelsEventParts : Event → Except Fault (EventType × EventSource × EventData)
  | .cdc e =>
    .ok (e.eventType, ⟨"", e.schema, e.table⟩,
      ⟨(e.data.get "id").getD .null, none, some e.data⟩)
  | .insert table newData _ => do
    let fields ← unwrapObject newData
    .ok (.create, ⟨"", "public", table⟩, ⟨(newData.get "id").getD .null, none, some fields⟩)
  | .update table oldData newData _ => do
    let fields ← unwrapObject newData
    .ok (.update, ⟨"", "public", table⟩,
      ⟨(newData.get "id").getD .null, oldData.asObject, some fields⟩)
  | .delete table oldData _ => do
    let fields ← unwrapObject oldData
    .ok (.delete, ⟨"", "public", table⟩, ⟨(oldData.get "id").getD .null, some fields, none⟩)
  | .fullSync table data => do
    let fields ← unwrapObject data
    .ok (.create, ⟨"", "public", table⟩, ⟨(data.get "id").getD .null, none, some fields⟩)
  | .checkpoint _ | .heartbeat => .ok (.create, ⟨"", "system", "control"⟩, ⟨.null, none, none⟩)

/-- `convert_to_models_event` -/
def convertToModelsEvent (event : Event) : TaskProg ModelsEvent := do
  let (eventType, source, data) ← .lift (modelsEventParts event)
  let id ← Env.newUuid
  let timestamp ← Env.clock
  pure ⟨id, eventType, source, data, ⟨none, "", []⟩, timestamp⟩

/-- `DeadLetterQueue::add_failed_event` with no retries yet. -/
def addFailedEvent (taskId : String) (source : Event) (event : ModelsEvent)
    (error : MeiliBridgeError) : TaskProg (Result Unit) := do
  let id ← Env.newUuid
  let createdAt ← Env.clock
  Env.storeDeadLetter ⟨id, taskId, event, error.display, 0, createdAt, none⟩ source

/-- The loop over the errors of a response, from the i-th event of the batch on. A failure to store
an entry is only logged. -/
def deadLetterFailed (taskId : String) : List String → List Event → TaskProg Unit
  | error :: errors, event :: events => do
    let converted ← convertToModelsEvent event
    let _ ← addFailedEvent taskId event converted (.pipeline error)
    deadLetterFailed taskId errors events
  | _, _ => pure ()

end MeiliBridge
