import Mathlib.Data.List.AList
import MeiliBridge.Base.Value

/-!
# Configuration of the pipeline stages

What a task's filter, transformer, mapper and soft-delete handler are built from. A map of the
configuration is an `AList`: its entries stand in the order in which the code's own map iterates
over them, which is arbitrary but the same at every use.
-/

set_option autoImplicit false

namespace MeiliBridge

/-- `HashMap<String, X>`, with the order of its iteration. -/
abbrev Dict (X : Type) := AList fun _ : String => X

section Dict

variable {X : Type} {m : Dict X} {key k : String} {x new : X}

theorem Dict.lookup_of_erase (h : (m.erase key).lookup k = some x) : m.lookup k = some x := by
  by_cases heq : k = key
  · rw [heq, AList.lookup_erase] at h
    cases h
  · rwa [AList.lookup_erase_ne heq] at h

theorem Dict.lookup_of_insert (h : (m.insert key new).lookup k = some x) :
    k = key ∧ x = new ∨ m.lookup k = some x := by
  by_cases heq : k = key
  · rw [heq, AList.lookup_insert] at h
    exact .inl ⟨heq, (Option.some.inj h).symm⟩
  · rw [AList.lookup_insert_ne heq] at h
    exact .inr h

end Dict

/-! ## Filter -/

structure TableFilter where
  whitelist : Option (List String)
  blacklist : Option (List String)

inductive Condition where
  | equals (field : String) (value : Value)
  | notEquals (field : String) (value : Value)
  | contains (field : String) (value : Value)
  | greaterThan (field : String) (value : Value)
  | lessThan (field : String) (value : Value)
  | isIn (field : String) (values : List Value)
  | isNull (field : String)
  | isNotNull (field : String)
  | and (conditions : List Condition)
  | or (conditions : List Condition)

structure FilterConfig where
  tables : TableFilter
  eventTypes : Option (List String)
  conditions : Option (List Condition)

/-! ## Transformer -/

inductive FieldTransform where
  | rename (source target : String)
  | convert (field toType : String)
  | extract (source path target : String)
  | compute (expression target : String)

inductive Transform where
  | addField (name : String) (value : Value)
  | removeField (name : String)
  | addTimestamp (field : String)
  | lowercase (fields : List String)
  | uppercase (fields : List String)

structure TransformConfig where
  fields : Dict (Dict FieldTransform)
  globalTransforms : Option (List Transform)

/-! ## Mapper -/

inductive FieldMapping where
  | simple (targetField : String)
  | complex (target : Option String) (default : Option Value) (sources : Option (List String))
      (separator path : Option String)

structure TableMapping where
  name : Option String
  fields : Option (Dict FieldMapping)

structure MappingConfig where
  tables : Dict TableMapping
  unmappedFieldsStrategy : String
  unmappedFieldsPrefix : Option String

/-! ## Soft delete -/

structure SoftDeleteConfig where
  field : String
  deleteValues : List Value
  handleOnFullSync : Bool
  handleOnCdc : Bool

end MeiliBridge
