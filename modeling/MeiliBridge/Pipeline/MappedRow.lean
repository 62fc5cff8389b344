import MeiliBridge.Pipeline.MappingOrder

/-!
# The row that a mapping makes

What `map_fields` keeps of the targets and of the unmapped fields. The include strategy leaves alone
what a target holds; the prefix strategy does not look, so that an unmapped field can take the place
of a target: `keepsMapped_iff`.
-/

set_option autoImplicit false

namespace MeiliBridge

namespace FieldMapper

/-- The field an entry is to write, whether it does or not. -/
def target (e : MappingEntry) : Option String :=
  match e.2 with
  | .simple targetField => some targetField
  | .complex targetField _ _ _ _ => targetField

/-- The prefix of unmapped fields; `_` where none is configured. -/
def unmappedPrefix (m : FieldMapper) : String := m.config.unmappedFieldsPrefix.getD "_"

/-- The row keeps what the entries compute, and of the other fields what the strategy says. -/
structure KeepsMapped (m : FieldMapper) (data : Fields) (entries : List MappingEntry)
    (result : Fields) : Prop where
  targets : ∀ e ∈ entries, ∀ key v, written data e = some (key, v) → result.get key = some v
  included : m.config.unmappedFieldsStrategy ≠ "exclude" →
    m.config.unmappedFieldsStrategy ≠ "prefix" →
    ∀ key v, data.get key = some v → key ∉ mappedFields data entries →
      (∀ e ∈ entries, target e ≠ some key) → result.get key = some v
  underPrefix : m.config.unmappedFieldsStrategy = "prefix" →
    ∀ key v, data.get key = some v → key ∉ mappedFields data entries →
      result.get (m.unmappedPrefix ++ key) = some v
  excluded : m.config.unmappedFieldsStrategy = "exclude" →
    ∀ key v, result.get key = some v → ∃ e ∈ entries, written data e = some (key, v)

/-- No unmapped field comes under its prefix to a target that holds another value. -/
def TargetsFree (m : FieldMapper) (data : Fields) (entries : List MappingEntry) : Prop :=
  m.config.unmappedFieldsStrategy = "prefix" → ∀ key v, data.get key = some v →
    key ∉ mappedFields data entries → ∀ e ∈ entries, ∀ v',
      written data e = some (m.unmappedPrefix ++ key, v') → v' = v

variable {m : FieldMapper} {data : Fields} {entries : List MappingEntry}

theorem target_of_written {e : MappingEntry} {key : String} {v : Value}
    (h : written data e = some (key, v)) : target e = some key := by
  obtain ⟨sourceField, mapping⟩ := e
  cases mapping with
  | simple targetField =>
    simp only [written, Option.map_eq_some_iff] at h
    obtain ⟨x, -, hpair⟩ := h
    exact congrArg some (Prod.mk.inj hpair).1
  | complex dest default sources separator path =>
    cases dest with
    | none => cases h
    | some targetField =>
      have hkey : targetField = key := by
        cases sources with
        | some fieldSources =>
          simp only [written] at h
          split at h
          · cases h
          · exact (Prod.mk.inj (Option.some.inj h)).1
        | none =>
          cases path with
          | none => exact (Prod.mk.inj (Option.some.inj h)).1
          | some path =>
            simp only [written, Option.map_eq_some_iff] at h
            obtain ⟨x, -, hpair⟩ := h
            exact (Prod.mk.inj hpair).1
      exact congrArg some hkey

/-- Where the targets are distinct, each is written once. -/
theorem nodup_writes (h : (entries.filterMap target).Nodup) :
    ((writes data entries).map Prod.fst).Nodup := by
  have hsub : ((writes data entries).map Prod.fst).Sublist (entries.filterMap target) := by
    induction entries with
    | nil => exact List.Sublist.refl _
    | cons e entries ih =>
      have hrest := ih (h.sublist (by
        rw [List.filterMap_cons]
        split
        · exact List.Sublist.refl _
        · exact List.sublist_cons_self _ _))
      rw [writes, List.flatMap_cons, List.map_append]
      cases hwritten : written data e with
      | none =>
        rw [List.filterMap_cons]
        split
        · exact hrest
        · exact hrest.cons _
      | some entry =>
        obtain ⟨key, v⟩ := entry
        rw [List.filterMap_cons, target_of_written hwritten]
        exact hrest.cons_cons key
  exact h.sublist hsub

theorem get_writes (h : (entries.filterMap target).Nodup) {e : MappingEntry} (he : e ∈ entries)
    {key : String} {v : Value} (hwritten : written data e = some (key, v)) :
    (Fields.insertAll [] (writes data entries)).get key = some v :=
  Fields.get_insertAll_of_mem (nodup_writes h) (mem_writes.mpr ⟨e, he, hwritten⟩) []

theorem nodup_prefixed (hdata : (data.map Prod.fst).Nodup) (pre : String)
    (mappedSources : List String) :
    ((prefixed pre data mappedSources).map Prod.fst).Nodup := by
  have hkeys : (prefixed pre data mappedSources).map Prod.fst =
      ((data.filter (·.1 ∉ mappedSources)).map Prod.fst).map (pre ++ ·) := by
    simp [prefixed]
  rw [hkeys]
  apply List.Nodup.map
  · intro key key' h
    exact (String.append_right_inj pre).mp h
  · exact hdata.sublist (List.filter_sublist.map Prod.fst)

/-- A field under the prefix has the value of the field. -/
theorem get_prefixUnmapped (hdata : (data.map Prod.fst).Nodup) {pre key : String}
    {mappedSources : List String} {v : Value} (hget : data.get key = some v)
    (hkey : key ∉ mappedSources) (result : Fields) :
    (prefixUnmapped pre data result mappedSources).get (pre ++ key) = some v := by
  rw [prefixUnmapped_eq]
  apply Fields.get_insertAll_of_mem (nodup_prefixed hdata pre mappedSources)
  obtain ⟨before, after, hsplit, -⟩ := List.lookup_eq_some_iff.mp hget
  have hmem : (key, v) ∈ data := by simp [hsplit]
  exact List.mem_map.mpr ⟨(key, v), List.mem_filter.mpr ⟨hmem, by simpa using hkey⟩, rfl⟩

/-- What holds of the row whatever the targets are. -/
theorem rowOf_unmapped (hdata : (data.map Prod.fst).Nodup)
    (htargets : ∀ e ∈ entries, ∀ key v, written data e = some (key, v) →
      (m.rowOf data entries).get key = some v) :
    KeepsMapped m data entries (m.rowOf data entries) where
  targets := htargets
  included := by
    intro hexclude hpre key v hget hkey hfree
    have hnone : (Fields.insertAll [] (writes data entries)).get key = none := by
      rw [Fields.get_insertAll_eq_none_iff]
      intro hmem
      obtain ⟨⟨k, x⟩, hwrites, rfl⟩ := List.mem_map.mp hmem
      obtain ⟨e, he, hwritten⟩ := mem_writes.mp hwrites
      exact hfree e he (target_of_written hwritten)
    rw [rowOf, withUnmapped, if_neg hexclude, if_neg hpre, get_includeUnmapped, hnone,
      if_neg hkey, Option.none_or]
    exact hget
  underPrefix := by
    intro hpre key v hget hkey
    have hexclude : m.config.unmappedFieldsStrategy ≠ "exclude" := by
      rw [hpre]
      decide
    rw [rowOf, withUnmapped, if_neg hexclude, if_pos hpre]
    exact get_prefixUnmapped hdata hget hkey _
  excluded := by
    intro hexclude key v hget
    rw [rowOf, withUnmapped, if_pos hexclude] at hget
    rcases Fields.mem_of_get_insertAll hget with hmem | hnone
    · exact mem_writes.mp hmem
    · cases hnone

/-- Where the targets are distinct, a target holds what its entry computes unless it is covered. -/
theorem targets_iff (hdata : (data.map Prod.fst).Nodup)
    (hdistinct : (entries.filterMap target).Nodup) :
    (∀ e ∈ entries, ∀ key v, written data e = some (key, v) →
      (m.rowOf data entries).get key = some v) ↔ m.TargetsFree data entries := by
  constructor
  · intro htargets hpre key v hget hkey e he v' hwritten
    have hunmapped := (rowOf_unmapped hdata htargets).underPrefix hpre key v hget hkey
    rw [htargets e he _ v' hwritten] at hunmapped
    exact Option.some.inj hunmapped
  · intro hfree e he key v hwritten
    have hvalue := get_writes hdistinct he hwritten
    by_cases hcovered : m.Covered data entries key
    · obtain ⟨hpre, k, hk, hunmapped, rfl⟩ := hcovered
      obtain ⟨x, hx⟩ : ∃ x, data.get k = some x := by
        cases hget : data.get k with
        | some x => exact ⟨x, rfl⟩
        | none =>
          obtain ⟨⟨k', x⟩, hmem, rfl⟩ := List.mem_map.mp hk
          exact absurd (List.lookup_eq_none_iff.mp hget _ hmem) (by simp)
      obtain rfl : v = x := hfree hpre k x hx hunmapped e he v hwritten
      have hexclude : m.config.unmappedFieldsStrategy ≠ "exclude" := by
        rw [hpre]
        decide
      rw [rowOf, withUnmapped, if_neg hexclude, if_pos hpre]
      exact get_prefixUnmapped hdata hx hunmapped _
    · exact get_rowOf_of_written hcovered hvalue

/-- **A mapping keeps its targets and the unmapped fields exactly where** no unmapped field comes
under its prefix to a target that holds another value. -/
theorem keepsMapped_iff (m : FieldMapper) {data : Fields} {fieldMappings : Dict FieldMapping}
    (hdata : (data.map Prod.fst).Nodup)
    (hdistinct : (fieldMappings.entries.filterMap target).Nodup) :
    (∃ result, m.mapFields data fieldMappings = .ok result ∧
      KeepsMapped m data fieldMappings.entries result) ↔
      m.TargetsFree data fieldMappings.entries := by
  rw [← targets_iff hdata hdistinct, mapFields_writes]
  constructor
  · rintro ⟨result, hresult, hkeeps⟩
    rw [rowOf, Except.ok.inj hresult]
    exact hkeeps.targets
  · intro htargets
    exact ⟨_, rfl, rowOf_unmapped hdata htargets⟩

/-- The title of a book goes to the field that its name has under the prefix. -/
def titleMappings : Dict FieldMapping :=
  ⟨[⟨"title", .simple "_name"⟩], List.nodupKeys_singleton _⟩

def titleRow : Fields := [("name", .bool false), ("title", .bool true)]

theorem keepsMapped_not_always : ¬ ∀ (m : FieldMapper) (data : Fields)
    (fieldMappings : Dict FieldMapping), (data.map Prod.fst).Nodup →
      (fieldMappings.entries.filterMap target).Nodup →
      ∃ result, m.mapFields data fieldMappings = .ok result ∧
        KeepsMapped m data fieldMappings.entries result := by
  intro h
  obtain ⟨result, -, hkeeps⟩ := h ⟨⟨∅, "prefix", none⟩⟩ titleRow titleMappings (by decide)
    (List.nodup_singleton _)
  have htitle := hkeeps.targets _ List.mem_cons_self "_name" (.bool true) rfl
  have hname : result.get "_name" = some (.bool false) :=
    hkeeps.underPrefix rfl "name" (.bool false) rfl (by decide)
  rw [htitle] at hname
  cases Option.some.inj hname

/-- With the include strategy the name stays where it is. -/
theorem keepsMapped_iff_included :
    ∃ result, mapFields ⟨⟨∅, "include", none⟩⟩ titleRow titleMappings = .ok result ∧
      KeepsMapped ⟨⟨∅, "include", none⟩⟩ titleRow titleMappings.entries result := by
  apply (@keepsMapped_iff _ titleRow titleMappings (by decide) (List.nodup_singleton _)).mpr
  intro hpre
  exact absurd hpre (by decide)

end FieldMapper

end MeiliBridge
