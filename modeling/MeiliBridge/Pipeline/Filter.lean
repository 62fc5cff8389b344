import MeiliBridge.Config
import MeiliBridge.Models.Event

/-!
# The event filter

`EventFilter::should_process` and what it calls. It has an error type but no error path.
-/

set_option autoImplicit false

namespace MeiliBridge

structure EventFilter where
  config : FilterConfig

namespace EventFilter

/-- `is_table_allowed` -/
def isTableAllowed (f : EventFilter) (table : String) : Bool :=
  (f.config.tables.whitelist.all fun whitelist => whitelist.contains table) &&
    (f.config.tables.blacklist.all fun blacklist => !blacklist.contains table)

/-- `is_event_type_allowed` -/
def isEventTypeAllowed (f : EventFilter) (eventType : EventType) : Bool :=
  match f.config.eventTypes with
  | some allowedTypes =>
    allowedTypes.any fun t =>
      match t, eventType with
      | "create", .create => true
      | "update", .update => true
      | "delete", .delete => true
      | _, _ => false
  | none => true

/-- `compare_values`: numbers are compared as doubles, nothing else compares. -/
def compareValues (fieldValue : Option Value) (compareValue : Value) (op : ℚ → ℚ → Bool) : Bool :=
  match fieldValue, compareValue with
  | some (.number a), .number b => op a.asF64.val b.asF64.val
  | _, _ => false

mutual

/-- `evaluate_condition` -/
def evaluateCondition : Condition → Fields → Bool
  | .equals field value, data => data.get field = some value
  | .notEquals field value, data => data.get field ≠ some value
  | .contains field value, data =>
    match data.get field, value with
    | some (.string s), .string pattern => Text.contains s pattern
    | _, _ => false
  | .greaterThan field value, data => compareValues (data.get field) value fun a b => b < a
  | .lessThan field value, data => compareValues (data.get field) value fun a b => a < b
  | .isIn field values, data =>
    match data.get field with
    | some fieldValue => decide (fieldValue ∈ values)
    | none => false
  | .isNull field, data => (data.get field).all fun v => v = .null
  | .isNotNull field, data => (data.get field).any fun v => v ≠ .null
  | .and conditions, data => evaluateAll conditions data
  | .or conditions, data => evaluateAny conditions data

def evaluateAll : List Condition → Fields → Bool
  | [], _ => true
  | c :: cs, data => evaluateCondition c data && evaluateAll cs data

def evaluateAny : List Condition → Fields → Bool
  | [], _ => false
  | c :: cs, data => evaluateCondition c data || evaluateAny cs data

end

/-- `check_conditions` -/
def checkConditions (f : EventFilter) (data : Fields) : Bool :=
  f.config.conditions.all fun conditions => evaluateAll conditions data

/-- The conditions on a record, which only an object can fail. -/
def checkRecord (f : EventFilter) (data : Value) : Bool :=
  data.asObject.all f.checkConditions

/-- `should_process` -/
def shouldProcess (f : EventFilter) : Event → Result Bool
  | .cdc e =>
    .ok (f.isTableAllowed e.table && f.isEventTypeAllowed e.eventType && f.checkConditions e.data)
  | .fullSync table data => .ok (f.isTableAllowed table && f.checkRecord data)
  | .insert table newData _ =>
    .ok (f.isTableAllowed table && f.isEventTypeAllowed .create && f.checkRecord newData)
  | .update table _ newData _ =>
    .ok (f.isTableAllowed table && f.isEventTypeAllowed .update && f.checkRecord newData)
  | .delete table oldData _ =>
    .ok (f.isTableAllowed table && f.isEventTypeAllowed .delete && f.checkRecord oldData)
  | .checkpoint _ | .heartbeat => .ok true

end EventFilter

end MeiliBridge
