import MeiliBridge.Delivery.Deduplication

/-!
# What a deduplication key tells apart

A key has the LSN of an event, its table and the text of its field `id`. It leaves out the schema,
the operation, any position that is not PostgreSQL's and the primary key that the task is configured
with, and every full-sync event has the same empty key. `Confused` names the pairs of changes that
are taken for one (`key_sound_iff`).
-/

set_option autoImplicit false

namespace MeiliBridge

namespace DeduplicationKey

/-! ## What a change is -/

/-- The events that carry the data of a row. -/
def isData : Event → Bool
  | .checkpoint _ | .heartbeat => false
  | _ => true

def isFullSync : Event → Bool
  | .fullSync _ _ => true
  | _ => false

def tableOf : Event → String
  | .cdc e => e.table
  | .fullSync table _ | .insert table _ _ | .update table _ _ _ | .delete table _ _ => table
  | .checkpoint _ | .heartbeat => ""

def schemaOf : Event → Option String
  | .cdc e => some e.schema
  | _ => none

/-- The operation; a full-sync event has none. -/
def operationOf : Event → Option EventType
  | .cdc e => some e.eventType
  | .insert _ _ _ => some .create
  | .update _ _ _ _ => some .update
  | .delete _ _ _ => some .delete
  | _ => none

/-- A field of the row: the new row of an update, the old one of a deletion. -/
def rowField (field : String) : Event → Option Value
  | .cdc e => e.data.get field
  | .fullSync _ data | .insert _ data _ | .update _ _ data _ | .delete _ data _ => data.get field
  | .checkpoint _ | .heartbeat => none

/-- Two events describe the same change to a row that is identified by `pk`. -/
structure SameChange (pk : String) (e e' : Event) : Prop where
  position : extractPositionFromEvent e = extractPositionFromEvent e'
  schema : schemaOf e = schemaOf e'
  table : tableOf e = tableOf e'
  operation : operationOf e = operationOf e'
  row : rowField pk e = rowField pk e'

/-! ## What a key is made of -/

/-- The text of the field `id`. -/
def idText (e : Event) : Option String := (rowField "id" e).map Value.display

theorem dedupRowKey_eq (table : String) (id : Option Value) (position : Option Position) :
    dedupRowKey table id position = ⟨dedupLsn position, none, table, id.map Value.display⟩ := by
  cases id <;> rfl

theorem key_of_row {e : Event} (hdata : isData e = true) (hrow : isFullSync e = false) :
    createDedupKeyFromEvent e =
      ⟨dedupLsn (extractPositionFromEvent e), none, tableOf e, idText e⟩ := by
  cases e with
  | cdc e => exact dedupRowKey_eq _ _ _
  | insert table newData position => exact dedupRowKey_eq _ _ _
  | update table oldData newData position => exact dedupRowKey_eq _ _ _
  | delete table oldData position => exact dedupRowKey_eq _ _ _
  | fullSync table data => cases hrow
  | checkpoint position => cases hdata
  | heartbeat => cases hdata

/-- A full-sync event has another operation than a row's change. -/
theorem operationOf_eq_none {e : Event} (hdata : isData e = true) :
    operationOf e = none ↔ isFullSync e = true := by
  cases e with
  | checkpoint position => cases hdata
  | heartbeat => cases hdata
  | _ => simp [operationOf, isFullSync]

theorem key_of_fullSync {e : Event} (h : isFullSync e = true) :
    createDedupKeyFromEvent e = ⟨"", none, "", none⟩ := by
  cases e with
  | fullSync table data => rfl
  | _ => cases h

/-- Two changes of single rows in one table, with the same LSN if any, and the same `id` if any. -/
structure Alike (e e' : Event) : Prop where
  row : isFullSync e = false
  row' : isFullSync e' = false
  table : tableOf e = tableOf e'
  lsn : dedupLsn (extractPositionFromEvent e) = dedupLsn (extractPositionFromEvent e')
  id : idText e = idText e'

/-- A row's change without an LSN, a table name and an `id`. -/
structure Blank (e : Event) : Prop where
  row : isFullSync e = false
  table : tableOf e = ""
  lsn : dedupLsn (extractPositionFromEvent e) = ""
  id : rowField "id" e = none

/-- The pairs of different changes that have one key. -/
inductive Confused (pk : String) (e e' : Event) : Prop
  /-- full-sync events of two tables -/
  | syncedTables (h : isFullSync e = true) (h' : isFullSync e' = true)
      (hne : tableOf e ≠ tableOf e')
  /-- full-sync events of two rows -/
  | syncedRows (h : isFullSync e = true) (h' : isFullSync e' = true)
      (hne : rowField pk e ≠ rowField pk e')
  | syncedBlank (h : isFullSync e = true) (h' : Blank e')
  | blankSynced (h : Blank e) (h' : isFullSync e' = true)
  /-- two tables of one name in different schemas -/
  | schema (h : Alike e e') (hne : schemaOf e ≠ schemaOf e')
  /-- say, a row that is inserted and deleted at one LSN -/
  | operation (h : Alike e e') (hne : operationOf e ≠ operationOf e')
  /-- rows with another primary key than `id` -/
  | row (h : Alike e e') (hne : rowField pk e ≠ rowField pk e')
  /-- positions that are missing or of another database -/
  | position (h : Alike e e') (hne : extractPositionFromEvent e ≠ extractPositionFromEvent e')

variable {pk : String} {e e' : Event}

theorem Alike.key_eq (h : Alike e e') (hdata : isData e = true) (hdata' : isData e' = true) :
    createDedupKeyFromEvent e = createDedupKeyFromEvent e' := by
  rw [key_of_row hdata h.row, key_of_row hdata' h.row', h.lsn, h.table, h.id]

theorem Blank.key_eq (h : Blank e) (hdata : isData e = true) :
    createDedupKeyFromEvent e = ⟨"", none, "", none⟩ := by
  rw [key_of_row hdata h.row, h.lsn, h.table, idText, h.id]
  rfl

theorem alike_of_key_eq (hdata : isData e = true) (hdata' : isData e' = true)
    (hrow : isFullSync e = false) (hrow' : isFullSync e' = false)
    (h : createDedupKeyFromEvent e = createDedupKeyFromEvent e') : Alike e e' := by
  rw [key_of_row hdata hrow, key_of_row hdata' hrow', DeduplicationKey.mk.injEq] at h
  obtain ⟨hlsn, -, htable, hid⟩ := h
  exact ⟨hrow, hrow', htable, hlsn, hid⟩

theorem blank_of_key_eq (hdata : isData e = true) (hrow : isFullSync e = false)
    (h : createDedupKeyFromEvent e = ⟨"", none, "", none⟩) : Blank e := by
  rw [key_of_row hdata hrow, DeduplicationKey.mk.injEq] at h
  obtain ⟨hlsn, -, htable, hid⟩ := h
  exact ⟨hrow, htable, hlsn, Option.map_eq_none_iff.mp hid⟩

/-! ## Soundness -/

/-- A pair that is confused has one key, and is not the same change. -/
theorem Confused.unsound (hdata : isData e = true) (hdata' : isData e' = true)
    (h : Confused pk e e') :
    createDedupKeyFromEvent e = createDedupKeyFromEvent e' ∧ ¬ SameChange pk e e' := by
  cases h with
  | syncedTables h h' hne =>
    exact ⟨(key_of_fullSync h).trans (key_of_fullSync h').symm, fun hsame => hne hsame.table⟩
  | syncedRows h h' hne =>
    exact ⟨(key_of_fullSync h).trans (key_of_fullSync h').symm, fun hsame => hne hsame.row⟩
  | syncedBlank h h' =>
    refine ⟨(key_of_fullSync h).trans (h'.key_eq hdata').symm, fun hsame => ?_⟩
    have hsynced := (operationOf_eq_none hdata).mpr h
    rw [hsame.operation, operationOf_eq_none hdata', h'.row] at hsynced
    cases hsynced
  | blankSynced h h' =>
    refine ⟨(h.key_eq hdata).trans (key_of_fullSync h').symm, fun hsame => ?_⟩
    have hsynced := (operationOf_eq_none hdata').mpr h'
    rw [← hsame.operation, operationOf_eq_none hdata, h.row] at hsynced
    cases hsynced
  | schema h hne => exact ⟨h.key_eq hdata hdata', fun hsame => hne hsame.schema⟩
  | operation h hne => exact ⟨h.key_eq hdata hdata', fun hsame => hne hsame.operation⟩
  | row h hne => exact ⟨h.key_eq hdata hdata', fun hsame => hne hsame.row⟩
  | position h hne => exact ⟨h.key_eq hdata hdata', fun hsame => hne hsame.position⟩

/-- Two changes with one key that are not confused are the same. -/
theorem sameChange_of_key_eq (hdata : isData e = true) (hdata' : isData e' = true)
    (hkey : createDedupKeyFromEvent e = createDedupKeyFromEvent e') (h : ¬ Confused pk e e') :
    SameChange pk e e' := by
  -- the key of a full sync row is built apart from those of the other kinds
  cases hrow : isFullSync e with
  | true =>
    cases hrow' : isFullSync e' with
    | true =>
      cases e with
      | fullSync table data =>
        cases e' with
        | fullSync table' data' =>
          refine ⟨rfl, rfl, ?_, rfl, ?_⟩
          · by_contra hne
            exact h (.syncedTables rfl rfl hne)
          · by_contra hne
            exact h (.syncedRows rfl rfl hne)
        | _ => cases hrow'
      | _ => cases hrow
    | false =>
      rw [key_of_fullSync hrow] at hkey
      exact absurd (.syncedBlank hrow (blank_of_key_eq hdata' hrow' hkey.symm)) h
  | false =>
    cases hrow' : isFullSync e' with
    | true =>
      rw [key_of_fullSync hrow'] at hkey
      exact absurd (.blankSynced (blank_of_key_eq hdata hrow hkey) hrow') h
    | false =>
      have halike := alike_of_key_eq hdata hdata' hrow hrow' hkey
      refine ⟨?_, ?_, halike.table, ?_, ?_⟩
      · by_contra hne
        exact h (.position halike hne)
      · by_contra hne
        exact h (.schema halike hne)
      · by_contra hne
        exact h (.operation halike hne)
      · by_contra hne
        exact h (.row halike hne)

/-- **One key means one change exactly for the pairs that are not confused.** -/
theorem key_sound_iff (hdata : isData e = true) (hdata' : isData e' = true) :
    (createDedupKeyFromEvent e = createDedupKeyFromEvent e' → SameChange pk e e') ↔
      ¬ Confused pk e e' := by
  constructor
  · intro h hconfused
    obtain ⟨hkey, hne⟩ := hconfused.unsound hdata hdata'
    exact hne (h hkey)
  · intro h hkey
    exact sameChange_of_key_eq hdata hdata' hkey h

/-- An insertion into a table of languages, whose primary key is their code. -/
def inserted (code : String) : Event :=
  .cdc ⟨.create, "languages", "public", [("code", .string code)], some (.postgreSQL "0/10")⟩

/-- Two languages that are inserted by one transaction have one key. -/
theorem languages_confused :
    ¬ ∀ (pk : String) (e e' : Event), isData e = true → isData e' = true →
      createDedupKeyFromEvent e = createDedupKeyFromEvent e' → SameChange pk e e' := by
  intro hall
  have hsame := hall "code" (inserted "en") (inserted "fr") rfl rfl (by decide)
  exact absurd hsame.row (by decide)

/-- With the code as the field `id`, there is no confusion. -/
theorem languages_told_apart :
    (.insert "languages" (.object [("id", .string "en")]) none : Event) ≠
        .insert "languages" (.object [("id", .string "fr")]) none ∧
      (createDedupKeyFromEvent (.insert "languages" (.object [("id", .string "en")]) none) =
          createDedupKeyFromEvent (.insert "languages" (.object [("id", .string "fr")]) none) →
        SameChange "id" (.insert "languages" (.object [("id", .string "en")]) none)
          (.insert "languages" (.object [("id", .string "fr")]) none)) := by
  refine ⟨by decide, (key_sound_iff rfl rfl).mpr fun h => ?_⟩
  have hkey := (h.unsound rfl rfl).1
  exact absurd hkey (by decide)

end DeduplicationKey

end MeiliBridge
