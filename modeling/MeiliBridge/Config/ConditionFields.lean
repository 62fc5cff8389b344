import Mathlib.Data.Finset.Insert
import MeiliBridge.Pipeline.Filter

/-!
# The fields of a condition

`collect_fields_from_condition` of the validator against `evaluate_condition` of the filter: what a
condition says of a row is decided by the fields that are collected, and each of these stands in one
of its leaves.
-/

set_option autoImplicit false

namespace MeiliBridge

namespace Condition

/-- The field that a leaf looks at; `And` and `Or` are no leaves. -/
def field? : Condition → Option String
  | .equals field _ => some field
  | .notEquals field _ => some field
  | .contains field _ => some field
  | .greaterThan field _ => some field
  | .lessThan field _ => some field
  | .isIn field _ => some field
  | .isNull field => some field
  | .isNotNull field => some field
  | .and _ => none
  | .or _ => none

/-- Some leaf of the condition looks at the field. -/
inductive Occurs (field : String) : Condition → Prop
  | leaf {c : Condition} (h : c.field? = some field) : Occurs field c
  | and {c : Condition} {conditions : List Condition} (hmem : c ∈ conditions) (h : Occurs field c) :
      Occurs field (.and conditions)
  | or {c : Condition} {conditions : List Condition} (hmem : c ∈ conditions) (h : Occurs field c) :
      Occurs field (.or conditions)

/-- What holds of the leaves, and of `And` and `Or` where it holds of their parts, holds of all. -/
@[elab_as_elim]
theorem induction_on {P : Condition → Prop} (c : Condition)
    (leaf : ∀ (c : Condition) (field : String), c.field? = some field → P c)
    (and : ∀ conditions, (∀ c ∈ conditions, P c) → P (.and conditions))
    (or : ∀ conditions, (∀ c ∈ conditions, P c) → P (.or conditions)) : P c := by
  refine @Condition.rec P (fun conditions => ∀ c ∈ conditions, P c) (fun field value => ?_)
    (fun field value => ?_) (fun field value => ?_) (fun field value => ?_) (fun field value => ?_)
    (fun field values => ?_) (fun field => ?_) (fun field => ?_) and or ?_ ?_ c
  · exact leaf _ field rfl
  · exact leaf _ field rfl
  · exact leaf _ field rfl
  · exact leaf _ field rfl
  · exact leaf _ field rfl
  · exact leaf _ field rfl
  · exact leaf _ field rfl
  · exact leaf _ field rfl
  · intro c hc
    cases hc
  · intro first rest hfirst hrest c hc
    rcases List.mem_cons.mp hc with rfl | hc
    · exact hfirst
    · exact hrest c hc

end Condition

namespace ConfigValidator

mutual

/-- `collect_fields_from_condition` -/
def collectFieldsFromCondition : Condition → Finset String → Finset String
  | .equals field _, fields => insert field fields
  | .notEquals field _, fields => insert field fields
  | .contains field _, fields => insert field fields
  | .greaterThan field _, fields => insert field fields
  | .lessThan field _, fields => insert field fields
  | .isIn field _, fields => insert field fields
  | .isNull field, fields => insert field fields
  | .isNotNull field, fields => insert field fields
  | .and conditions, fields => collectFieldsFromAll conditions fields
  | .or conditions, fields => collectFieldsFromAll conditions fields

def collectFieldsFromAll : List Condition → Finset String → Finset String
  | [], fields => fields
  | cond :: conditions, fields =>
    collectFieldsFromAll conditions (collectFieldsFromCondition cond fields)

end

theorem collect_leaf {c : Condition} {field : String} (h : c.field? = some field)
    (fields : Finset String) : collectFieldsFromCondition c fields = insert field fields := by
  cases c with
  | and conditions => cases h
  | or conditions => cases h
  | _ =>
    obtain rfl := Option.some.inj h
    rw [collectFieldsFromCondition]

theorem mem_collectAll {conditions : List Condition} {field : String}
    (h : ∀ c ∈ conditions, ∀ fields, field ∈ collectFieldsFromCondition c fields ↔
      field ∈ fields ∨ c.Occurs field) (fields : Finset String) :
    field ∈ collectFieldsFromAll conditions fields ↔
      field ∈ fields ∨ ∃ c ∈ conditions, c.Occurs field := by
  induction conditions generalizing fields with
  | nil => simp [collectFieldsFromAll]
  | cons cond conditions ih =>
    rw [collectFieldsFromAll, ih fun c hc => h c (List.mem_cons_of_mem cond hc),
      h cond List.mem_cons_self]
    simp [or_assoc]

/-- The fields of the leaves are added, and no others. -/
theorem mem_collect (c : Condition) (fields : Finset String) (field : String) :
    field ∈ collectFieldsFromCondition c fields ↔ field ∈ fields ∨ c.Occurs field := by
  induction c using Condition.induction_on generalizing fields with
  | leaf c leafField h =>
    rw [collect_leaf h, Finset.mem_insert, or_comm]
    apply or_congr_right
    constructor
    · intro heq
      exact .leaf (heq ▸ h)
    · intro hoccurs
      cases hoccurs with
      | leaf h' => exact Option.some.inj (h'.symm.trans h)
      | and hmem _ => cases h
      | or hmem _ => cases h
  | and conditions ih =>
    rw [collectFieldsFromCondition, mem_collectAll ih]
    apply or_congr_right
    constructor
    · rintro ⟨c, hc, hoccurs⟩
      exact .and hc hoccurs
    · intro hoccurs
      cases hoccurs with
      | leaf h => cases h
      | and hc h => exact ⟨_, hc, h⟩
  | or conditions ih =>
    rw [collectFieldsFromCondition, mem_collectAll ih]
    apply or_congr_right
    constructor
    · rintro ⟨c, hc, hoccurs⟩
      exact .or hc hoccurs
    · intro hoccurs
      cases hoccurs with
      | leaf h => cases h
      | or hc h => exact ⟨_, hc, h⟩

end ConfigValidator

namespace EventFilter

theorem evaluateAll_congr {conditions : List Condition} {data data' : Fields}
    (h : ∀ c ∈ conditions, evaluateCondition c data = evaluateCondition c data') :
    evaluateAll conditions data = evaluateAll conditions data' := by
  induction conditions with
  | nil => rw [evaluateAll, evaluateAll]
  | cons c conditions ih =>
    rw [evaluateAll, evaluateAll, h c List.mem_cons_self,
      ih fun c' hc' => h c' (List.mem_cons_of_mem c hc')]

theorem evaluateAny_congr {conditions : List Condition} {data data' : Fields}
    (h : ∀ c ∈ conditions, evaluateCondition c data = evaluateCondition c data') :
    evaluateAny conditions data = evaluateAny conditions data' := by
  induction conditions with
  | nil => rw [evaluateAny, evaluateAny]
  | cons c conditions ih =>
    rw [evaluateAny, evaluateAny, h c List.mem_cons_self,
      ih fun c' hc' => h c' (List.mem_cons_of_mem c hc')]

theorem evaluate_leaf {c : Condition} {field : String} (h : c.field? = some field)
    {data data' : Fields} (hget : data.get field = data'.get field) :
    evaluateCondition c data = evaluateCondition c data' := by
  cases c with
  | and conditions => cases h
  | or conditions => cases h
  | _ =>
    obtain rfl := Option.some.inj h
    simp only [evaluateCondition, hget]

/-- A condition is the same on two rows that have the same at each field of its leaves. -/
theorem evaluate_congr (c : Condition) {data data' : Fields}
    (h : ∀ field, c.Occurs field → data.get field = data'.get field) :
    evaluateCondition c data = evaluateCondition c data' := by
  induction c using Condition.induction_on with
  | leaf c field hleaf => exact evaluate_leaf hleaf (h field (.leaf hleaf))
  | and conditions ih =>
    rw [evaluateCondition, evaluateCondition]
    exact evaluateAll_congr fun c hc => ih c hc fun field hoccurs => h field (.and hc hoccurs)
  | or conditions ih =>
    rw [evaluateCondition, evaluateCondition]
    exact evaluateAny_congr fun c hc => ih c hc fun field hoccurs => h field (.or hc hoccurs)

/-- **A condition looks only at the fields that the validator collects for it**, and each of these
is the field of a leaf. -/
theorem looks_at_collected (c : Condition) :
    (∀ data data' : Fields,
      (∀ field ∈ ConfigValidator.collectFieldsFromCondition c ∅,
        data.get field = data'.get field) →
      evaluateCondition c data = evaluateCondition c data') ∧
    ∀ field ∈ ConfigValidator.collectFieldsFromCondition c ∅, c.Occurs field := by
  have hmem (field : String) :
      field ∈ ConfigValidator.collectFieldsFromCondition c ∅ ↔ c.Occurs field := by
    simp [ConfigValidator.mem_collect]
  constructor
  · intro data data' hagree
    apply evaluate_congr c
    intro field hoccurs
    exact hagree field ((hmem field).mpr hoccurs)
  · intro field hcollected
    exact (hmem field).mp hcollected

/-- Two rows with one price, and a condition that looks at it twice -/
theorem looks_at_collected_price :
    evaluateCondition (.or [.isNull "price", .and [.equals "price" (.bool true)]])
        [("price", .bool true)] =
      evaluateCondition (.or [.isNull "price", .and [.equals "price" (.bool true)]])
        [("name", .null), ("price", .bool true)] := by
  apply (looks_at_collected _).1
  intro field hcollected
  have hprice : field = "price" := by
    simpa [ConfigValidator.collectFieldsFromCondition, ConfigValidator.collectFieldsFromAll]
      using hcollected
  rw [hprice]
  rfl

end EventFilter

end MeiliBridge
