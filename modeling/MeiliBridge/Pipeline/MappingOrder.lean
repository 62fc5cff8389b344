import Mathlib.Data.List.Perm.Basic
import MeiliBridge.Base.FieldOrder
import MeiliBridge.Pipeline.Mapper

/-!
# The order of field mappings

The entries of a mapping come out of a hash map in any order. Each reads the original row, so all
that matters is which of several entries for one target comes last: `mapFields_order_iff`.
-/

set_option autoImplicit false

namespace MeiliBridge

namespace FieldMapper

/-- An entry of a mapping -/
abbrev MappingEntry := Σ _ : String, FieldMapping

/-! ## What an entry does -/

/-- The field that an entry writes, and its value. -/
def written (data : Fields) (e : MappingEntry) : Option (String × Value) :=
  match e.2 with
  | .simple targetField => (data.get e.1).map (targetField, ·)
  | .complex none _ _ _ _ => none
  | .complex (some targetField) _ (some fieldSources) separator _ =>
    let values := (fieldSources.filter data.containsKey).filterMap fun source =>
      (data.get source).map valueToString
    if values = [] then none
    else some (targetField, .string (Text.join values (separator.getD ",")))
  | .complex (some targetField) _ none _ (some path) =>
    (extractNested data e.1 path).map (targetField, ·)
  | .complex (some targetField) default none _ none =>
    some (targetField, (data.get e.1).getD (default.getD .null))

/-- The fields that an entry takes for mapped. -/
def mapped (data : Fields) (e : MappingEntry) : List String :=
  match e.2 with
  | .simple _ => if data.containsKey e.1 then [e.1] else []
  | .complex none _ _ _ _ => []
  | .complex (some _) _ (some fieldSources) _ _ => fieldSources.filter data.containsKey
  | .complex (some _) _ none _ (some path) =>
    if (extractNested data e.1 path).isSome then [e.1] else []
  | .complex (some _) _ none _ none => [e.1]

theorem fieldMapping_eq (data result : Fields) (mappedSources : List String) (e : MappingEntry) :
    fieldMapping data result mappedSources e.1 e.2 =
      (result.insertAll (written data e).toList, mappedSources ++ mapped data e) := by
  obtain ⟨sourceField, mapping⟩ := e
  cases mapping with
  | simple targetField =>
    cases hget : data.get sourceField with
    | none => simp [fieldMapping, written, mapped, Fields.containsKey, Fields.insertAll, hget]
    | some value => simp [fieldMapping, written, mapped, Fields.containsKey, Fields.insertAll, hget]
  | complex target default sources separator path =>
    cases target with
    | none => simp [fieldMapping, written, mapped, Fields.insertAll]
    | some targetField =>
      cases sources with
      | some fieldSources =>
        simp only [fieldMapping, written, mapped]
        split
        · simp [Fields.insertAll]
        · simp [Fields.insertAll]
      | none =>
        cases path with
        | none => simp [fieldMapping, written, mapped, Fields.insertAll]
        | some path =>
          cases hextract : extractNested data sourceField path with
          | none => simp [fieldMapping, written, mapped, Fields.insertAll, hextract]
          | some value => simp [fieldMapping, written, mapped, Fields.insertAll, hextract]

/-- All that the entries write. -/
def writes (data : Fields) (entries : List MappingEntry) : Fields :=
  entries.flatMap fun e => (written data e).toList

/-- All that the entries take for mapped. -/
def mappedFields (data : Fields) (entries : List MappingEntry) : List String :=
  entries.flatMap (mapped data)

/-- The loop of `map_fields` collects what the entries write and what they take for mapped. -/
theorem foldl_rounds {data : Fields}
    {f : Fields × List String → MappingEntry → Fields × List String}
    (hf : ∀ result mappedSources e, f (result, mappedSources) e =
      (result.insertAll (written data e).toList, mappedSources ++ mapped data e))
    (result : Fields) (mappedSources : List String) (entries : List MappingEntry) :
    entries.foldl f (result, mappedSources) =
      (result.insertAll (writes data entries), mappedSources ++ mappedFields data entries) := by
  induction entries generalizing result mappedSources with
  | nil => simp [writes, mappedFields, Fields.insertAll]
  | cons e entries ih =>
    rw [List.foldl_cons, hf, ih]
    simp only [writes, mappedFields, List.flatMap_cons, Fields.insertAll_append, List.append_assoc]

/-! ## Unmapped fields -/

variable (m : FieldMapper)

/-- The unmapped fields, as the strategy has it. -/
def withUnmapped (data result : Fields) (mappedSources : List String) : Fields :=
  if m.config.unmappedFieldsStrategy = "exclude" then result
  else if m.config.unmappedFieldsStrategy = "prefix" then
    prefixUnmapped (m.config.unmappedFieldsPrefix.getD "_") data result mappedSources
  else includeUnmapped data result mappedSources

theorem mapFields_writes (data : Fields) (fieldMappings : Dict FieldMapping) :
    m.mapFields data fieldMappings =
      .ok (m.withUnmapped data (Fields.insertAll [] (writes data fieldMappings.entries))
        (mappedFields data fieldMappings.entries)) := by
  rw [mapFields, foldl_rounds (fun result mappedSources e => fieldMapping_eq data result _ e)]
  simp only [List.nil_append, withUnmapped]
  split
  · next h => rw [h, if_neg (by decide), if_neg (by decide)]
  · next h => rw [h, if_pos rfl]
  · next h => rw [h, if_neg (by decide), if_pos rfl]
  · next hinclude hexclude hpre => rw [if_neg hexclude, if_neg hpre]

theorem get_includeUnmapped (data result : Fields) (mappedSources : List String) (key : String) :
    (includeUnmapped data result mappedSources).get key =
      (result.get key).or (if key ∈ mappedSources then none else data.get key) := by
  induction data generalizing result with
  | nil => simp [includeUnmapped, Fields.get]
  | cons entry data ih =>
    obtain ⟨k, v⟩ := entry
    have hstep : includeUnmapped ((k, v) :: data) result mappedSources =
        includeUnmapped data (if k ∉ mappedSources ∧ ¬ result.containsKey k then
          result.insert k v else result) mappedSources := rfl
    rw [hstep, ih, Fields.get_cons]
    by_cases hkey : key = k
    · subst hkey
      by_cases hmapped : key ∈ mappedSources
      · rw [if_neg (fun h => h.1 hmapped), if_pos hmapped, if_pos hmapped]
      · rw [if_neg hmapped, if_neg hmapped, if_pos rfl]
        cases hresult : result.get key with
        | some x =>
          rw [if_neg (by simp [Fields.containsKey, hresult]), hresult]
          rfl
        | none =>
          rw [if_pos ⟨hmapped, by simp [Fields.containsKey, hresult]⟩, Fields.get_insert,
            if_pos rfl]
          rfl
    · rw [if_neg hkey]
      split
      · rw [Fields.get_insert, if_neg hkey]
      · rfl

/-- The unmapped fields under a prefix. -/
def prefixed (pre : String) (data : Fields) (mappedSources : List String) : Fields :=
  (data.filter (·.1 ∉ mappedSources)).map fun e => (pre ++ e.1, e.2)

theorem prefixUnmapped_eq (pre : String) (data result : Fields) (mappedSources : List String) :
    prefixUnmapped pre data result mappedSources =
      result.insertAll (prefixed pre data mappedSources) := by
  induction data generalizing result with
  | nil => rfl
  | cons entry data ih =>
    obtain ⟨k, v⟩ := entry
    have hstep : prefixUnmapped pre ((k, v) :: data) result mappedSources =
        prefixUnmapped pre data (if k ∉ mappedSources then result.insert (pre ++ k) v else result)
          mappedSources := rfl
    rw [hstep, ih, prefixed, prefixed, List.filter_cons]
    by_cases hmapped : k ∈ mappedSources
    · simp [hmapped]
    · simp [hmapped, Fields.insertAll]

theorem mem_prefixed {pre : String} {data : Fields} {mappedSources : List String} {key : String} :
    key ∈ (prefixed pre data mappedSources).map Prod.fst ↔
      ∃ k ∈ data.map Prod.fst, k ∉ mappedSources ∧ key = pre ++ k := by
  simp only [prefixed, List.map_map, List.mem_map, List.mem_filter, decide_eq_true_eq,
    Function.comp_apply]
  constructor
  · rintro ⟨e, ⟨he, hnot⟩, rfl⟩
    exact ⟨e.1, ⟨e, he, rfl⟩, hnot, rfl⟩
  · rintro ⟨k, ⟨e, he, rfl⟩, hnot, rfl⟩
    exact ⟨e, ⟨he, hnot⟩, rfl⟩

/-- An unmapped field is put there under the prefix, over whatever an entry has written. -/
def Covered (data : Fields) (entries : List MappingEntry) (key : String) : Prop :=
  m.config.unmappedFieldsStrategy = "prefix" ∧
    ∃ k ∈ data.map Prod.fst, k ∉ mappedFields data entries ∧
      key = m.config.unmappedFieldsPrefix.getD "_" ++ k

/-- **Entries that write one field write one value**, unless an unmapped field takes its place. -/
def WritesAgree (data : Fields) (entries : List MappingEntry) : Prop :=
  ∀ e ∈ entries, ∀ e' ∈ entries, ∀ key v v', written data e = some (key, v) →
    written data e' = some (key, v') → v = v' ∨ m.Covered data entries key

variable {m} {data : Fields} {entries entries' : List MappingEntry}

/-- The row of a list of entries -/
def rowOf (m : FieldMapper) (data : Fields) (entries : List MappingEntry) : Fields :=
  m.withUnmapped data (Fields.insertAll [] (writes data entries)) (mappedFields data entries)

theorem ordered_rowOf : (m.rowOf data entries).Ordered := by
  have hwrites := Fields.ordered_nil.insertAll (writes data entries)
  rw [rowOf, withUnmapped]
  split
  · exact hwrites
  · split
    · rw [prefixUnmapped_eq]
      exact hwrites.insertAll _
    · apply hwrites.foldl
      intro acc e hacc
      show Fields.Ordered (if _ then acc.insert e.1 e.2 else acc)
      split
      · exact hacc.insert _ _
      · exact hacc

/-- What has been written stays, unless it is covered. -/
theorem get_rowOf_of_written {key : String} (hcovered : ¬ m.Covered data entries key) {v : Value}
    (hv : (Fields.insertAll [] (writes data entries)).get key = some v) :
    (m.rowOf data entries).get key = some v := by
  rw [rowOf, withUnmapped]
  split
  · exact hv
  · split
    · next hpre =>
      rw [prefixUnmapped_eq, Fields.get_insertAll_of_not_mem]
      · exact hv
      · rw [mem_prefixed]
        exact fun h => hcovered ⟨hpre, h⟩
    · rw [get_includeUnmapped, hv, Option.some_or]

/-! ## Orders -/

theorem mem_writes {key : String} {v : Value} :
    (key, v) ∈ writes data entries ↔ ∃ e ∈ entries, written data e = some (key, v) := by
  simp [writes, Option.mem_toList]

theorem writes_keys_perm (hperm : entries'.Perm entries) {key : String} :
    key ∈ (writes data entries').map Prod.fst ↔ key ∈ (writes data entries).map Prod.fst :=
  ((hperm.flatMap_right _).map _).mem_iff

theorem mappedFields_perm (hperm : entries'.Perm entries) {key : String} :
    key ∈ mappedFields data entries' ↔ key ∈ mappedFields data entries :=
  (hperm.flatMap_right _).mem_iff

theorem covered_perm (hperm : entries'.Perm entries) {key : String} :
    m.Covered data entries' key ↔ m.Covered data entries key := by
  simp only [Covered, mappedFields_perm hperm]

/-- Where the entries agree, a field that is not covered has the same value in every order. -/
theorem WritesAgree.get_perm (h : m.WritesAgree data entries) (hperm : entries'.Perm entries)
    (key : String) :
    (Fields.insertAll [] (writes data entries')).get key =
      (Fields.insertAll [] (writes data entries)).get key ∨ m.Covered data entries key := by
  cases hv : (Fields.insertAll [] (writes data entries)).get key with
  | none =>
    rw [Fields.get_insertAll_eq_none_iff, ← writes_keys_perm hperm,
      ← Fields.get_insertAll_eq_none_iff] at hv
    exact .inl hv
  | some v =>
    cases hv' : (Fields.insertAll [] (writes data entries')).get key with
    | none =>
      rw [Fields.get_insertAll_eq_none_iff, writes_keys_perm hperm,
        ← Fields.get_insertAll_eq_none_iff, hv] at hv'
      cases hv'
    | some v' =>
      have hmem := (Fields.mem_of_get_insertAll hv).resolve_right (by simp [Fields.get])
      have hmem' := (Fields.mem_of_get_insertAll hv').resolve_right (by simp [Fields.get])
      obtain ⟨e, he, hwritten⟩ := mem_writes.mp hmem
      obtain ⟨e', he', hwritten'⟩ := mem_writes.mp hmem'
      rcases h e he e' (hperm.subset he') key v v' hwritten hwritten' with rfl | hcovered
      · exact .inl rfl
      · exact .inr hcovered

theorem WritesAgree.rowOf_perm (h : m.WritesAgree data entries) (hperm : entries'.Perm entries) :
    m.rowOf data entries' = m.rowOf data entries := by
  apply ordered_rowOf.ext ordered_rowOf
  intro key
  have hget := h.get_perm hperm key
  rw [rowOf, rowOf, withUnmapped, withUnmapped]
  split
  · next hexclude =>
    apply hget.resolve_right
    rintro ⟨hpre, -⟩
    rw [hexclude] at hpre
    exact absurd hpre (by decide)
  · split
    · next hpre =>
      have hsame : prefixed (m.config.unmappedFieldsPrefix.getD "_") data
          (mappedFields data entries') = prefixed (m.config.unmappedFieldsPrefix.getD "_") data
            (mappedFields data entries) := by
        simp only [prefixed, mappedFields_perm hperm]
      rw [prefixUnmapped_eq, prefixUnmapped_eq, hsame]
      by_cases hmem : key ∈ (prefixed (m.config.unmappedFieldsPrefix.getD "_") data
          (mappedFields data entries)).map Prod.fst
      · exact Fields.get_insertAll_of_mem_keys hmem _ _
      · rw [Fields.get_insertAll_of_not_mem hmem, Fields.get_insertAll_of_not_mem hmem]
        apply hget.resolve_right
        rintro ⟨-, hcovered⟩
        exact hmem (mem_prefixed.mpr hcovered)
    · next hinclude =>
      have hresult := hget.resolve_right fun hcovered => hinclude hcovered.1
      simp only [get_includeUnmapped, hresult, mappedFields_perm hperm]

/-- Two elements can be put last, in either order. -/
theorem perm_two_last {α : Type} {xs : List α} {a b : α} (ha : a ∈ xs) (hb : b ∈ xs) (hne : a ≠ b) :
    ∃ rest, (rest ++ [a, b]).Perm xs ∧ (rest ++ [b, a]).Perm xs := by
  obtain ⟨before, after, rfl⟩ := List.append_of_mem ha
  have hrest : b ∈ before ++ after := by
    rcases List.mem_append.mp hb with hb | hb
    · exact List.mem_append_left _ hb
    · rcases List.mem_cons.mp hb with rfl | hb
      · exact absurd rfl hne
      · exact List.mem_append_right _ hb
  obtain ⟨before', after', hsplit⟩ := List.append_of_mem hrest
  have hperm : (before' ++ after' ++ [a, b]).Perm (before ++ a :: after) := by
    refine List.Perm.trans ?_ List.perm_middle.symm
    rw [hsplit]
    refine List.perm_append_comm.trans (List.Perm.cons a ?_)
    show (b :: (before' ++ after')).Perm _
    exact List.perm_middle.symm
  refine ⟨before' ++ after', hperm, List.Perm.trans ?_ hperm⟩
  exact (List.Perm.swap a b []).append_left _

theorem get_last_written {rest : List MappingEntry} {e : MappingEntry} {key : String} {v : Value}
    (h : written data e = some (key, v)) :
    (Fields.insertAll [] (writes data (rest ++ [e]))).get key = some v := by
  rw [writes, List.flatMap_append, List.flatMap_singleton, h, Fields.insertAll_append]
  show (Fields.insert key v _).get key = some v
  rw [Fields.get_insert, if_pos rfl]

/-- Every order makes the same row exactly where the entries agree. -/
theorem rowOf_perm_iff : (∀ entries', entries'.Perm entries →
    m.rowOf data entries' = m.rowOf data entries) ↔ m.WritesAgree data entries := by
  refine ⟨fun h => ?_, fun h entries' hperm => h.rowOf_perm hperm⟩
  intro e he e' he' key v v' hwritten hwritten'
  by_contra hnot
  rw [not_or] at hnot
  have hne : e ≠ e' := by
    rintro rfl
    rw [hwritten] at hwritten'
    exact hnot.1 (Prod.mk.inj (Option.some.inj hwritten')).2
  obtain ⟨rest, hperm, hperm'⟩ := perm_two_last he he' hne
  have hlast := @get_last_written data (rest ++ [e]) e' key v' hwritten'
  have hlast' := @get_last_written data (rest ++ [e']) e key v hwritten
  rw [List.append_assoc] at hlast hlast'
  have hrow := get_rowOf_of_written (mt (covered_perm hperm).mp hnot.2) hlast
  have hrow' := get_rowOf_of_written (mt (covered_perm hperm').mp hnot.2) hlast'
  rw [h _ hperm] at hrow
  rw [h _ hperm', hrow] at hrow'
  exact hnot.1 (Option.some.inj hrow').symm

end FieldMapper

/-- The same entries, in another order. -/
def Reordered {X : Type} (dict other : Dict X) : Prop := other.entries.Perm dict.entries

theorem reordered_of_perm {X : Type} {dict : Dict X} {entries : List (Σ _ : String, X)}
    (h : entries.Perm dict.entries) : ∃ other : Dict X, Reordered dict other ∧
      other.entries = entries :=
  ⟨⟨entries, (List.perm_nodupKeys h).mpr dict.nodupKeys⟩, h, rfl⟩

namespace FieldMapper

theorem mapFields_order_iff (m : FieldMapper) (data : Fields) (fieldMappings : Dict FieldMapping) :
    (∀ other, Reordered fieldMappings other →
      m.mapFields data other = m.mapFields data fieldMappings) ↔
      m.WritesAgree data fieldMappings.entries := by
  rw [← rowOf_perm_iff]
  constructor
  · intro h entries hperm
    obtain ⟨other, hother, rfl⟩ := reordered_of_perm hperm
    have hrow := h other hother
    rw [mapFields_writes, mapFields_writes] at hrow
    exact Except.ok.inj hrow
  · intro h other hother
    rw [mapFields_writes, mapFields_writes]
    exact congrArg Except.ok (h _ hother)

end FieldMapper

end MeiliBridge
