import MeiliBridge.Config
import MeiliBridge.Models.Event

/-!
# The event transformer

`EventTransformer::transform` and what it calls. A conversion to a number unwraps the JSON number
of a double, so a text that reads as an infinity or as no number at all makes it panic.
-/

set_option autoImplicit false

namespace MeiliBridge

structure EventTransformer where
  config : TransformConfig

namespace EventTransformer

/-- A `MeiliBridgeError::Pipeline` -/
def pipelineError {α : Type} (msg : String) : Except Fault α := .error (.err (.pipeline msg))

/-- `convert_type` -/
def convertType (rt : Runtime) (value : Value) (toType : String) : Except Fault Value :=
  match toType with
  | "string" =>
    match value with
    | .string s => .ok (.string s)
    | .number n => .ok (.string n.display)
    | .bool b => .ok (.string (if b then "true" else "false"))
    | _ => .ok (.string value.display)
  | "number" =>
    match value with
    | .number n => .ok (.number n)
    | .string s =>
      match F64.parse s with
      | some (.finite x) => .ok (.number (.float x))
      -- `Number::from_f64(n).unwrap()` of an infinity or a NaN
      | some .nonFinite => .error .panic
      | none => pipelineError s!"Cannot convert '{s}' to number"
    | _ => pipelineError "Cannot convert value to number"
  | "boolean" =>
    match value with
    | .bool b => .ok (.bool b)
    | .string s => .ok (.bool (rt.toLowercase s = "true" || s = "1"))
    | .number n => .ok (.bool (n.asI64.getD 0 ≠ 0))
    | _ => .ok (.bool false)
  | "array" =>
    match value with
    | .array a => .ok (.array a)
    | other => .ok (.array [other])
  | _ => pipelineError s!"Unknown type conversion: {toType}"

/-- `extract_path` -/
def extractPath (value : Value) (path : String) : Option Value :=
  value.walk (Text.split '.' path)

/-- The text a `concat` takes from one field. -/
def concatPart (data : Fields) (field : String) : String :=
  match data.get field with
  | some (.string s) => s
  | some value => value.display
  | none => ""

/-- `evaluate_expression`: only `concat(…)` is known. -/
def evaluateExpression (expression : String) (data : Fields) : Option Value :=
  if Text.startsWith expression "concat(" ∧ Text.endsWith expression ")" then
    let inner := String.ofList ((expression.toList.drop 7).dropLast)
    let fields := (Text.split ',' inner).map Text.trim
    some (.string (Text.join (fields.map (concatPart data)) ""))
  else none

/-- One round of the loop of `transform_fields`, on the fields left to rename and the result. -/
def fieldTransform (rt : Runtime) (data result : Fields) :
    FieldTransform → Except Fault (Fields × Fields)
  | .rename source target =>
    match data.get source with
    | some value => .ok (data.remove source, result.insert target value)
    | none => .ok (data, result)
  | .convert field toType =>
    match data.get field with
    | some value => do
      let converted ← convertType rt value toType
      .ok (data, result.insert field converted)
    | none => .ok (data, result)
  | .extract source path target =>
    match (data.get source).bind (extractPath · path) with
    | some extracted => .ok (data, result.insert target extracted)
    | none => .ok (data, result)
  | .compute expression target =>
    match evaluateExpression expression data with
    | some computed => .ok (data, result.insert target computed)
    | none => .ok (data, result)

/-- `entry(k).or_insert(v)` for every remaining field -/
def includeRemaining (data result : Fields) : Fields :=
  data.foldl (fun acc (k, v) => if acc.containsKey k then acc else acc.insert k v) result

/-- `transform_fields` -/
def transformFields (rt : Runtime) (data : Fields) (fieldConfig : Dict FieldTransform) :
    Except Fault Fields := do
  let (data, result) ← (fieldConfig.entries.map (·.2)).foldlM
    (fun (data, result) t => fieldTransform rt data result t) (data, [])
  .ok (includeRemaining data result)

/-- Rewrite the text of a field, if the field is there and holds a text. -/
def mapString (f : String → String) (data : Fields) (field : String) : Fields :=
  match data.get field with
  | some (.string s) => data.insert field (.string (f s))
  | _ => data

/-- `apply_transform`; none of its branches fails. -/
def applyTransform (rt : Runtime) (data : Fields) : Transform → Except Fault Fields
  | .addField name value => .ok (data.insert name value)
  | .removeField name => .ok (data.remove name)
  | .addTimestamp field => .ok (data.insert field (.string rt.utcNow))
  | .lowercase fields => .ok (fields.foldl (mapString rt.toLowercase) data)
  | .uppercase fields => .ok (fields.foldl (mapString rt.toUppercase) data)

/-- The field transformations of the table, if it has any. -/
def applyFieldConfig (rt : Runtime) (t : EventTransformer) (table : String) (data : Fields) :
    Except Fault Fields :=
  match t.config.fields.lookup table with
  | some fieldConfig => transformFields rt data fieldConfig
  | none => .ok data

/-- The global transformations, in order. -/
def applyGlobalTransforms (rt : Runtime) (t : EventTransformer) (data : Fields) :
    Except Fault Fields :=
  (t.config.globalTransforms.getD []).foldlM (applyTransform rt) data

/-- `transform`. It never answers `Ok(None)`, and a full-sync record gets no global transform. -/
def transform (rt : Runtime) (t : EventTransformer) : Event → Except Fault (Option Event)
  | .cdc e => do
    let data ← applyFieldConfig rt t e.table e.data
    let data ← applyGlobalTransforms rt t data
    .ok (some (.cdc { e with data }))
  | .fullSync table (.object obj) => do
    let transformed ← applyFieldConfig rt t table obj
    .ok (some (.fullSync table (.object transformed)))
  | other => .ok (some other)

theorem transform_rewritten {rt : Runtime} {t : EventTransformer} {e e' : Event}
    (h : t.transform rt e = .ok (some e')) : e.Rewritten e' := by
  cases e with
  | cdc e =>
    simp only [transform] at h
    obtain ⟨d₁, -, h⟩ := bind_eq_ok.mp h
    obtain ⟨d₂, -, h⟩ := bind_eq_ok.mp h
    cases h
    exact ⟨e.table, d₂, rfl⟩
  | fullSync table data =>
    cases data with
    | object obj =>
      obtain ⟨d, -, h⟩ := bind_eq_ok.mp h
      cases h
      trivial
    | _ => cases h; trivial
  | _ => cases h; rfl

/-! ## The global transformations -/

/-- The global transformations; none of them fails. -/
def applyGlobals (rt : Runtime) (t : EventTransformer) (data : Fields) : Fields :=
  match applyGlobalTransforms rt t data with
  | .ok data => data
  | .error _ => data

theorem foldlM_applyTransform_ok (rt : Runtime) (transforms : List Transform) (data : Fields) :
    ∃ result, transforms.foldlM (applyTransform rt) data = .ok result := by
  induction transforms generalizing data with
  | nil => exact ⟨data, rfl⟩
  | cons transform transforms ih =>
    have hone : ∃ d, applyTransform rt data transform = .ok d := by
      cases transform <;> exact ⟨_, rfl⟩
    obtain ⟨d, hd⟩ := hone
    obtain ⟨result, hresult⟩ := ih d
    exact ⟨result, by rw [List.foldlM_cons, hd]; exact hresult⟩

theorem applyGlobalTransforms_eq (rt : Runtime) (t : EventTransformer) (data : Fields) :
    applyGlobalTransforms rt t data = .ok (applyGlobals rt t data) := by
  obtain ⟨result, h⟩ := foldlM_applyTransform_ok rt (t.config.globalTransforms.getD []) data
  have hresult : applyGlobalTransforms rt t data = .ok result := h
  rw [applyGlobals, hresult]

/-- No global transform writes the time. -/
def NoTimestamp (t : EventTransformer) : Prop :=
  ∀ transforms, t.config.globalTransforms = some transforms →
    ∀ field, Transform.addTimestamp field ∉ transforms

theorem foldlM_applyTransform_clock {transforms : List Transform}
    (h : ∀ field, .addTimestamp field ∉ transforms) (rt : Runtime) (now : String) (data : Fields) :
    transforms.foldlM (applyTransform { rt with utcNow := now }) data =
      transforms.foldlM (applyTransform rt) data := by
  induction transforms generalizing data with
  | nil => rfl
  | cons transform transforms ih =>
    have hone : applyTransform { rt with utcNow := now } data transform =
        applyTransform rt data transform := by
      cases transform with
      | addTimestamp field => exact absurd List.mem_cons_self (h field)
      | _ => rfl
    rw [List.foldlM_cons, List.foldlM_cons, hone]
    congr 1
    funext d
    exact ih (fun field hmem => h field (List.mem_cons_of_mem _ hmem)) d

/-- Without a time stamp the clock is not read. -/
theorem applyGlobals_clock {t : EventTransformer} (h : t.NoTimestamp) (rt : Runtime) (now : String)
    (data : Fields) : applyGlobals { rt with utcNow := now } t data = applyGlobals rt t data := by
  have hglobals : applyGlobalTransforms { rt with utcNow := now } t data =
      applyGlobalTransforms rt t data := by
    refine foldlM_applyTransform_clock ?_ rt now data
    cases hg : t.config.globalTransforms with
    | none => simp
    | some transforms => exact h transforms hg
  rw [applyGlobals, hglobals, applyGlobals]

end EventTransformer

end MeiliBridge
