import MeiliBridge.Config
import MeiliBridge.Models.Event

/-!
# The soft-delete handler

`SoftDeleteHandler::transform_event` turns an update whose soft-delete field holds a delete value
into an `Event::Delete`, and drops such a record from a full sync.
-/

set_option autoImplicit false

namespace MeiliBridge

structure SoftDeleteHandler where
  config : SoftDeleteConfig

namespace SoftDeleteHandler

/-- `is_soft_deleted` -/
def isSoftDeleted (sd : SoftDeleteHandler) (value : Value) : Bool :=
  decide (value ∈ sd.config.deleteValues)

/-- The test every branch makes on the handler's field. -/
def fieldIsDeleted (sd : SoftDeleteHandler) (fieldValue : Option Value) : Bool :=
  fieldValue.any sd.isSoftDeleted

/-- `transform_event` -/
def transformEvent (sd : SoftDeleteHandler) : Event → Option Event
  | .cdc e =>
    if e.eventType ≠ .update then some (.cdc e)
    else if ¬ sd.config.handleOnCdc then some (.cdc e)
    else if sd.fieldIsDeleted (e.data.get sd.config.field) then
      some (.delete e.table (.object e.data) e.position)
    else some (.cdc e)
  | .update table oldData newData position =>
    if ¬ sd.config.handleOnCdc then some (.update table oldData newData position)
    else if sd.fieldIsDeleted (newData.get sd.config.field) then
      some (.delete table oldData position)
    else some (.update table oldData newData position)
  | .fullSync table data =>
    if ¬ sd.config.handleOnFullSync then some (.fullSync table data)
    else if sd.fieldIsDeleted (data.get sd.config.field) then none
    else some (.fullSync table data)
  | other => some other

/-! ## What the handler does to each kind of event -/

/-- The CDC events that become deletes: updates that carry a delete value. -/
def deletesUpdate (sd : SoftDeleteHandler) (e : CdcEvent) : Bool :=
  decide (e.eventType = .update) && sd.config.handleOnCdc &&
    sd.fieldIsDeleted (e.data.get sd.config.field)

/-- The full-sync records that are dropped. -/
def hidesRecord (sd : SoftDeleteHandler) (data : Value) : Bool :=
  sd.config.handleOnFullSync && sd.fieldIsDeleted (data.get sd.config.field)

theorem transformEvent_cdc (sd : SoftDeleteHandler) (e : CdcEvent) :
    sd.transformEvent (.cdc e) =
      if sd.deletesUpdate e then some (.delete e.table (.object e.data) e.position)
      else some (.cdc e) := by
  simp only [transformEvent, deletesUpdate]
  by_cases hu : e.eventType = .update <;> by_cases hc : sd.config.handleOnCdc = true <;>
    simp [hu, hc]

theorem transformEvent_fullSync (sd : SoftDeleteHandler) (table : String) (data : Value) :
    sd.transformEvent (.fullSync table data) =
      if sd.hidesRecord data then none else some (.fullSync table data) := by
  simp only [transformEvent, hidesRecord]
  by_cases hf : sd.config.handleOnFullSync = true <;> simp [hf]

/-- The handler makes no record of anything else. -/
theorem transformEvent_of_not_isRecord (sd : SoftDeleteHandler) {e : Event}
    (h : e.isRecord = false) : ∃ e', sd.transformEvent e = some e' ∧ e'.isRecord = false := by
  cases e with
  | cdc e => cases h
  | fullSync table data => cases h
  | update table oldData newData position =>
    simp only [transformEvent]
    split_ifs <;> exact ⟨_, rfl, rfl⟩
  | _ => exact ⟨_, rfl, rfl⟩

end SoftDeleteHandler

end MeiliBridge
