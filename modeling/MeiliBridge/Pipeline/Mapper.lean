import MeiliBridge.Config
import MeiliBridge.Models.Event

/-!
# The field mapper

`FieldMapper::map_event` and what it calls. It has an error type but no error path.
-/

set_option autoImplicit false

namespace MeiliBridge

structure FieldMapper where
  config : MappingConfig

namespace FieldMapper

/-- `value_to_string` -/
def valueToString : Value → String
  | .string s => s
  | .number n => n.display
  | .bool b => if b then "true" else "false"
  | .null => ""
  | value => value.display

/-- `extract_nested` -/
def extractNested (data : Fields) (baseField path : String) : Option Value :=
  (data.get baseField).bind fun baseValue => baseValue.walk (Text.split '.' path)

/-- One round of the loop of `map_fields`, on the result and the mapped sources. -/
def fieldMapping (data : Fields) (result : Fields) (mappedSources : List String)
    (sourceField : String) : FieldMapping → Fields × List String
  | .simple targetField =>
    match data.get sourceField with
    | some value => (result.insert targetField value, mappedSources ++ [sourceField])
    | none => (result, mappedSources)
  | .complex none _ _ _ _ => (result, mappedSources)
  | .complex (some targetField) _ (some fieldSources) separator _ =>
    let present := fieldSources.filter data.containsKey
    let values := present.filterMap fun source => (data.get source).map valueToString
    if values = [] then (result, mappedSources ++ present)
    else
      (result.insert targetField (.string (Text.join values (separator.getD ","))),
        mappedSources ++ present)
  | .complex (some targetField) _ none _ (some path) =>
    match extractNested data sourceField path with
    | some value => (result.insert targetField value, mappedSources ++ [sourceField])
    | none => (result, mappedSources)
  | .complex (some targetField) default none _ none =>
    let value := (data.get sourceField).getD (default.getD .null)
    (result.insert targetField value, mappedSources ++ [sourceField])

/-- The unmapped fields under their own names, where the result has no such field. -/
def includeUnmapped (data result : Fields) (mappedSources : List String) : Fields :=
  data.foldl (fun acc (k, v) =>
    if k ∉ mappedSources ∧ ¬ acc.containsKey k then acc.insert k v else acc) result

/-- The unmapped fields under a prefix. -/
def prefixUnmapped (pre : String) (data result : Fields) (mappedSources : List String) : Fields :=
  data.foldl (fun acc (k, v) => if k ∉ mappedSources then acc.insert (pre ++ k) v else acc) result

/-- `map_fields` -/
def mapFields (m : FieldMapper) (data : Fields) (fieldMappings : Dict FieldMapping) :
    Result Fields :=
  let (result, mappedSources) := fieldMappings.entries.foldl
    (fun (result, mappedSources) e => fieldMapping data result mappedSources e.1 e.2) ([], [])
  match m.config.unmappedFieldsStrategy with
  | "include" => .ok (includeUnmapped data result mappedSources)
  | "exclude" => .ok result
  | "prefix" =>
    .ok (prefixUnmapped (m.config.unmappedFieldsPrefix.getD "_") data result mappedSources)
  | _ => .ok (includeUnmapped data result mappedSources)

/-- `map_event` -/
def mapEvent (m : FieldMapper) : Event → Result Event
  | .cdc e =>
    match m.config.tables.lookup e.table with
    | some tableMapping => do
      let data ←
        match tableMapping.fields with
        | some fieldMappings => m.mapFields e.data fieldMappings
        | none => .ok e.data
      .ok (.cdc { e with table := tableMapping.name.getD e.table, data })
    | none => .ok (.cdc e)
  | .fullSync table data =>
    match m.config.tables.lookup table with
    | some tableMapping =>
      match tableMapping.fields, data with
      | some fieldMappings, .object obj => do
        let mapped ← m.mapFields obj fieldMappings
        .ok (.fullSync (tableMapping.name.getD table) (.object mapped))
      | _, _ => .ok (.fullSync (tableMapping.name.getD table) data)
    | none => .ok (.fullSync table data)
  | other => .ok other

theorem mapFields_ok (m : FieldMapper) (data : Fields) (fieldMappings : Dict FieldMapping) :
    ∃ mapped, m.mapFields data fieldMappings = .ok mapped := by
  unfold mapFields
  split
  split <;> exact ⟨_, rfl⟩

/-- The mapper never fails, and it rewrites. -/
theorem mapEvent_ok (m : FieldMapper) (e : Event) :
    ∃ e', m.mapEvent e = .ok e' ∧ e.Rewritten e' := by
  cases e with
  | cdc e =>
    simp only [mapEvent]
    split
    · next tableMapping _ =>
      cases hf : tableMapping.fields with
      | none => exact ⟨_, rfl, _, _, rfl⟩
      | some fieldMappings =>
        obtain ⟨mapped, hm⟩ := m.mapFields_ok e.data fieldMappings
        simp only [hm]
        exact ⟨_, rfl, _, _, rfl⟩
    · exact ⟨_, rfl, .refl _⟩
  | fullSync table data =>
    simp only [mapEvent]
    split
    · split
      · next fieldMappings obj _ =>
        obtain ⟨mapped, hm⟩ := m.mapFields_ok obj fieldMappings
        simp only [hm]
        exact ⟨_, rfl, trivial⟩
      · exact ⟨_, rfl, trivial⟩
    · exact ⟨_, rfl, trivial⟩
  | _ => exact ⟨_, rfl, rfl⟩

/-! ## What the mapper makes of a record -/

/-- The fields of a record of the table. -/
def mappedUnder (m : FieldMapper) (table : String) (data : Fields) : Fields :=
  match (m.config.tables.lookup table).bind TableMapping.fields with
  | none => data
  | some fieldMappings =>
    match m.mapFields data fieldMappings with
    | .ok mapped => mapped
    | .error _ => data

/-- The name a table goes by after the mapper. -/
def renamed (m : FieldMapper) (table : String) : String :=
  ((m.config.tables.lookup table).bind TableMapping.name).getD table

theorem mapFields_eq (m : FieldMapper) {table : String} {tableMapping : TableMapping}
    {fieldMappings : Dict FieldMapping} (h : m.config.tables.lookup table = some tableMapping)
    (hf : tableMapping.fields = some fieldMappings) (data : Fields) :
    m.mapFields data fieldMappings = .ok (m.mappedUnder table data) := by
  obtain ⟨mapped, hm⟩ := m.mapFields_ok data fieldMappings
  simp [mappedUnder, h, hf, hm]

theorem mapEvent_fullSync (m : FieldMapper) (table : String) (data : Fields) :
    m.mapEvent (.fullSync table (.object data)) =
      .ok (.fullSync (m.renamed table) (.object (m.mappedUnder table data))) := by
  cases h : m.config.tables.lookup table with
  | none => simp [mapEvent, mappedUnder, renamed, h]
  | some tableMapping =>
    cases hf : tableMapping.fields with
    | none => simp [mapEvent, mappedUnder, renamed, h, hf]
    | some fieldMappings =>
      have hm := m.mapFields_eq h hf data
      simp only [mapEvent, renamed, h, hf, hm]
      rfl

theorem mapEvent_cdc (m : FieldMapper) (e : CdcEvent) :
    m.mapEvent (.cdc e) =
      .ok (.cdc { e with table := m.renamed e.table, data := m.mappedUnder e.table e.data }) := by
  cases h : m.config.tables.lookup e.table with
  | none => simp [mapEvent, mappedUnder, renamed, h]
  | some tableMapping =>
    cases hf : tableMapping.fields with
    | none =>
      simp only [mapEvent, mappedUnder, renamed, h, hf, Option.bind_some]
      rfl
    | some fieldMappings =>
      have hm := m.mapFields_eq h hf e.data
      simp only [mapEvent, renamed, h, hf, hm]
      rfl

end FieldMapper

end MeiliBridge
