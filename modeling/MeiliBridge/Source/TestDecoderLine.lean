import MeiliBridge.Source.TestDecoderTokens

/-!
# What the test_decoding parser makes of a line

The names before the first colon, the operation before the second, and the entries that the tokens
after it stand for, each put into the row in turn.
-/

set_option autoImplicit false

namespace MeiliBridge

open TestDecoding

namespace TestDecoder

/-! ## Rows -/

/-- The entries that the parts of a row stand for. -/
def entriesOf (parts : List (List Char)) : Fields :=
  parts.filterMap fun part => (columnOf part).map fun c => (c.1, parseValue c.2)

theorem entriesOf_cons (part : List Char) (parts : List (List Char)) :
    entriesOf (part :: parts) =
      ((columnOf part).map fun c => (c.1, parseValue c.2)).toList ++ entriesOf parts := by
  rw [entriesOf, List.filterMap_cons]
  cases columnOf part <;> rfl

theorem entriesOf_append (parts parts' : List (List Char)) :
    entriesOf (parts ++ parts') = entriesOf parts ++ entriesOf parts' :=
  List.filterMap_append ..

theorem parseRowLoop_fields (parts : List (List Char)) (primaryKey : Option String)
    (fields : Fields) :
    (parseRowLoop parts primaryKey fields).2 = fields.insertAll (entriesOf parts) := by
  induction parts generalizing primaryKey fields with
  | nil => rfl
  | cons part parts ih =>
    rw [parseRowLoop, entriesOf_cons]
    cases columnOf part with
    | none => exact ih primaryKey fields
    | some c => exact ih _ _

/-- Without a marker the columns of an update are old ones. -/
theorem parseUpdateLoop_fields {parts : List (List Char)} (hnew : "new-key:".toList ∉ parts)
    (hold : "old-key:".toList ∉ parts) {s : UpdateLoop} (hs : s.isNewSection = false) :
    (parseUpdateLoop parts s).newFields = s.newFields ∧
      (parseUpdateLoop parts s).oldFields = s.oldFields.insertAll (entriesOf parts) := by
  induction parts generalizing s with
  | nil => exact ⟨rfl, rfl⟩
  | cons part parts ih =>
    rw [List.mem_cons, not_or] at hnew hold
    rw [parseUpdateLoop, if_neg (Ne.symm hnew.1), if_neg (Ne.symm hold.1), entriesOf_cons]
    cases columnOf part with
    | none => exact ih hnew.2 hold.2 hs
    | some c =>
      have hsection : ¬ s.isNewSection = true := by simp [hs]
      simp only [if_neg hsection]
      exact ih hnew.2 hold.2
        (s := { s with oldFields := s.oldFields.insert c.1 (parseValue c.2) }) hs

theorem parseUpdateData_fields {parts : List (List Char)} (hnew : "new-key:".toList ∉ parts)
    (hold : "old-key:".toList ∉ parts) :
    (parseUpdateData parts).2 = Fields.insertAll [] (entriesOf parts) := by
  have hloop := parseUpdateLoop_fields hnew hold (s := ⟨[], [], none, false⟩) rfl
  simp only [parseUpdateData, hloop.1, hloop.2]
  rfl

/-- An old key in front changes nothing. -/
theorem parseUpdateData_oldKey (parts : List (List Char)) :
    parseUpdateData ("old-key:".toList :: parts) = parseUpdateData parts := by
  have hnew : "old-key:".toList ≠ "new-key:".toList := by decide
  rw [parseUpdateData, parseUpdateLoop, if_neg hnew, if_pos rfl]
  rfl

/-- Without markers the data of every operation are the entries of its parts. -/
theorem parseData_fields {parts : List (List Char)} (hnew : "new-key:".toList ∉ parts)
    (hold : "old-key:".toList ∉ parts) (operation : Operation) :
    (parseData operation.eventType parts).map Prod.snd =
      some (Fields.insertAll [] (entriesOf parts)) := by
  cases operation with
  | insert => exact congrArg some (parseRowLoop_fields parts none [])
  | update => exact congrArg some (parseUpdateData_fields hnew hold)
  | delete => exact congrArg some (parseRowLoop_fields parts none [])

section

variable {keyword : String → Bool}

/-- A marker of a section is no token of other items. -/
theorem marker_not_mem {items : List Item} (hitems : ∀ i ∈ items, i ≠ .oldKey) {marker : List Char}
    (hbracket : '[' ∉ marker) (hparen : '(' ∉ marker) (ht : 't' ∉ marker) :
    marker ∉ tokensOf keyword 0 [] items := by
  intro hmem
  obtain ⟨i, hi, hbegun⟩ := exists_begun (tokensOf_start items) hmem
  have hsubset := hbegun.2.subset
  cases i with
  | column c => exact hbracket (hsubset (by simp [text_column]))
  | oldKey => exact hitems _ ((heads_sublist 0 items).subset hi) rfl
  | newTuple => exact ht (hsubset (by rw [text_newTuple]; decide))
  | noTuple => exact hparen (hsubset (by rw [text_noTuple]; decide))

/-- The names of the entries are the printed names of the columns that begin a token. -/
theorem entries_names {columns : List PrintedColumn}
    (hplain : ∀ column ∈ columns, PlainItem (.column column)) {tokens : List (List Char)}
    (h : List.Forall₂ (Begun keyword) (columns.map .column) tokens) :
    (entriesOf tokens).map Prod.fst =
      columns.map fun column => String.ofList (quoteIdentifier keyword column.name) := by
  induction columns generalizing tokens with
  | nil =>
    cases h
    rfl
  | cons column columns ih =>
    rw [List.map_cons] at h
    cases h with
    | cons hbegun hrest =>
      obtain ⟨tail, -, -, hcolumn⟩ := columnOf_begun (hplain column List.mem_cons_self) hbegun
      rw [entriesOf_cons, hcolumn, List.map_append,
        ih (fun x hx => hplain x (List.mem_cons_of_mem _ hx)) hrest]
      rfl

/-- The entries of tokens that are columns, one by one -/
theorem entries_closed {columns : List PrintedColumn}
    (hplain : ∀ column ∈ columns, PlainItem (.column column)) :
    entriesOf ((columns.map Item.column).map (Item.text keyword)) =
      columns.map fun column => (String.ofList (quoteIdentifier keyword column.name),
        parseValue (sanitizeValue column.datum.literal)) := by
  induction columns with
  | nil => rfl
  | cons column columns ih =>
    obtain ⟨tail, htail, -, hcolumn⟩ :=
      columnOf_begun (hplain column List.mem_cons_self) (begun_text (.column column))
    obtain rfl : tail = [] := by simpa using htail
    rw [List.map_cons, List.map_cons, entriesOf_cons, hcolumn,
      ih fun x hx => hplain x (List.mem_cons_of_mem _ hx), List.append_nil]
    rfl

/-! ## Headers -/

theorem trimEndMatches_subset (c : Char) (cs : List Char) : Chars.trimEndMatches c cs ⊆ cs :=
  (List.rdropWhile_prefix _ cs).subset

/-- The two names hold no colon, and the table no dot. -/
theorem schemaAndTable_chars {tableFull : List Char} (h : ':' ∉ tableFull) :
    ':' ∉ (schemaAndTable tableFull).1 ∧ ':' ∉ (schemaAndTable tableFull).2 ∧
      '.' ∉ (schemaAndTable tableFull).2 := by
  rw [schemaAndTable]
  split
  · next schema table hsplit =>
    obtain ⟨rfl, hdot⟩ := Chars.rsplitOnce_eq_some hsplit
    simp only [List.mem_append, List.mem_cons, not_or] at h
    exact ⟨h.1, h.2.2, hdot⟩
  · next hsplit =>
    have hpublic : ':' ∉ "public".toList := by decide
    exact ⟨hpublic, h, Chars.rsplitOnce_eq_none_iff.mp hsplit⟩

/-- The names of an event that is returned -/
theorem parse_names {lsn message : String} {e : CdcEvent}
    (h : parseTestDecodingMessage lsn message = .ok (some (.cdc e))) :
    ':' ∉ e.schema.toList ∧ ':' ∉ e.table.toList ∧ '.' ∉ e.table.toList := by
  simp only [parseTestDecodingMessage] at h
  split at h
  · cases h
  · split at h
    · cases h
    · next tableToken rest hsplit =>
      have hcolon : ':' ∉ Chars.trimEndMatches ':' tableToken := fun hmem =>
        (Chars.splitOnce_eq_some hsplit).2 (trimEndMatches_subset _ _ hmem)
      obtain ⟨hschema, htable, hdot⟩ := schemaAndTable_chars hcolon
      split at h
      · cases h
      · split at h
        · cases h
        · split at h
          · cases h
          · cases h
            simp only [String.toList_ofList]
            exact ⟨hschema, fun hmem => htable (trimEndMatches_subset _ _ hmem),
              fun hmem => hdot (trimEndMatches_subset _ _ hmem)⟩

/-- The printed names of the header are taken apart at the dot between them. -/
theorem schemaAndTable_quoted (schema : String) {table : String} (hdot : '.' ∉ table.toList) :
    schemaAndTable (quoteIdentifier keyword schema ++ '.' :: quoteIdentifier keyword table) =
      (quoteIdentifier keyword schema, quoteIdentifier keyword table) := by
  have hdotQuoted : '.' ∉ quoteIdentifier keyword table := by
    intro hmem
    rcases mem_quoteIdentifier hmem with hmem | heq
    · exact hdot hmem
    · cases heq
  rw [schemaAndTable, Chars.rsplitOnce_append hdotQuoted]

theorem solid_operation (operation : Operation) : Solid operation.name := by
  cases operation <;> exact solid_of_any (by decide) rfl

theorem solid_afterTable (operation : Operation) (items : List Item) :
    Solid (operation.name ++ ':' :: itemsText keyword items) := by
  have hcolon : Solid [':'] := solid_of_any (by decide) rfl
  cases items with
  | nil => exact (solid_operation operation).append hcolon []
  | cons i is =>
    simpa [itemsText] using (solid_operation operation).append (solid_items i is) [':', ' ']

theorem operationType_name (operation : Operation) :
    operationType operation.name = some operation.eventType := by
  cases operation <;> rfl

/-- The line of a change to a table whose name and schema have no colon -/
theorem parse_line {schema table : String} (hschema : ':' ∉ quoteIdentifier keyword schema)
    (htable : ':' ∉ quoteIdentifier keyword table) (lsn : String) (operation : Operation)
    (items : List Item) {fields : Fields}
    (hfields : (parseData operation.eventType
      (tokenizeParts (Chars.trim (itemsText keyword items)))).map Prod.snd = some fields) :
    parseTestDecodingMessage lsn (String.ofList (line keyword schema table operation items)) =
      .ok (some (.cdc ⟨operation.eventType,
        String.ofList (schemaAndTable (quoteIdentifier keyword schema ++
          '.' :: quoteIdentifier keyword table)).2,
        String.ofList (schemaAndTable (quoteIdentifier keyword schema ++
          '.' :: quoteIdentifier keyword table)).1, fields, some (.postgreSQL lsn)⟩)) := by
  have hheader : ':' ∉ quoteIdentifier keyword schema ++ '.' :: quoteIdentifier keyword table := by
    simp [hschema, htable]
  have hspace : Text.isWhitespace ' ' = true := rfl
  have hop : ':' ∉ operation.name := by cases operation <;> decide
  -- what follows "table ", with nothing to trim
  have hafter := @solid_afterTable keyword operation items
  have hrest := (@solid_quoteIdentifier keyword schema).append hafter
    ('.' :: (quoteIdentifier keyword table ++ [':', ' ']))
  have hline : (line keyword schema table operation items).drop 6 =
      (quoteIdentifier keyword schema ++ '.' :: quoteIdentifier keyword table) ++
        ':' :: ' ' :: (operation.name ++ ':' :: itemsText keyword items) := by
    have hdrop : (line keyword schema table operation items).drop 6 =
        quoteIdentifier keyword schema ++ '.' :: (quoteIdentifier keyword table ++
          ':' :: ' ' :: (operation.name ++ ':' :: itemsText keyword items)) := rfl
    simp [hdrop]
  have hsolid : Solid ((quoteIdentifier keyword schema ++ '.' :: quoteIdentifier keyword table) ++
      ':' :: ' ' :: (operation.name ++ ':' :: itemsText keyword items)) := by
    simpa using hrest
  have hpre : "table ".toList.isPrefixOf (line keyword schema table operation items) = true := by
    rw [List.isPrefixOf_iff_prefix]
    exact List.prefix_append _ _
  obtain ⟨⟨primaryKey, data⟩, hdata, rfl⟩ := Option.map_eq_some_iff.mp hfields
  have htableColon := (schemaAndTable_chars hheader).2.1
  simp only [parseTestDecodingMessage, String.toList_ofList, hpre, not_true, if_false, hline,
    hsolid.trim, Chars.splitOnce_append hheader, Chars.trim_cons hspace, hafter.trim,
    Chars.splitOnce_append hop, (solid_operation operation).trim, operationType_name, hdata,
    Chars.trimEndMatches_eq_self hheader, Chars.trimEndMatches_eq_self htableColon]

end

end TestDecoder

end MeiliBridge
