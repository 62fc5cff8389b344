import Mathlib.Data.List.Perm.Subperm
import MeiliBridge.Source.WalConsumerScan

/-!
# When the two parsers of test_decoding lines agree

The parser of the WAL consumer makes at most one field of two values, and none of its strings holds
a quote. The parser of the replication consumer makes a field of every token, and a token that has
swallowed a column keeps the quotes between the two. So they agree on no line without an old key.
-/

set_option autoImplicit false

namespace MeiliBridge

open TestDecoding TestDecoder WalConsumer

namespace DecoderAgreement

/-! ## Tokens that have swallowed a column -/

theorem foreign_quote : Chars.Foreign '\'' := by
  rw [Chars.Foreign]
  decide

/-- A value with a quote in it is read as a string with that quote. -/
theorem parseValue_quote {value : List Char} (h : '\'' ∈ value) :
    ∃ s : String, parseValue value = .string s ∧ '\'' ∈ s.toList := by
  have htrim : '\'' ∈ Chars.trim value := Chars.mem_trim rfl h
  have hne : Chars.trim value ≠ [] := List.ne_nil_of_mem htrim
  have hnumber := foreign_quote.no_number (s := String.ofList (Chars.trim value))
    (by rwa [String.toList_ofList])
  rw [String.toList_ofList] at hnumber
  have hword (word : List Char) (hquote : '\'' ∉ word.map Char.toLower) :
      ¬ Chars.eqIgnoreAsciiCase (Chars.trim value) word = true := by
    intro heq
    rw [← beq_iff_eq.mp heq] at hquote
    exact hquote (List.mem_map.mpr ⟨_, htrim, rfl⟩)
  refine ⟨String.ofList (Chars.trim value), ?_, by rwa [String.toList_ofList]⟩
  have htrue := hword "true".toList (by decide)
  have hfalse := hword "false".toList (by decide)
  have hnull := hword "null".toList (by decide)
  simp only [parseValue, if_neg hne, hnumber.1, hnumber.2, if_neg htrue, if_neg hfalse,
    if_neg hnull]

theorem mem_undouble {cs : List Char} (h : '\'' ∈ cs) : '\'' ∈ Chars.undouble cs := by
  induction cs using Chars.undouble.induct with
  | case1 cs ih => exact List.mem_cons_self
  | case2 c cs hpair ih =>
    rw [Chars.undouble]
    · rcases List.mem_cons.mp h with rfl | h
      · exact List.mem_cons_self
      · exact List.mem_cons_of_mem _ (ih h)
    · exact hpair
  | case3 => cases h

section

variable {keyword : String → Bool}

/-- A literal that opens a bracket is in quotes. -/
theorem quoted_of_open {datum : Datum} (h : depthAfter 0 datum.literal ≠ 0) :
    ∃ s, datum.literal = quoted '\'' s := by
  have hplain {cs : List Char} (hcs : ∀ c ∈ cs, plainChar c = true) : depthAfter 0 cs = 0 :=
    depthAfter_plain hcs 0
  cases datum with
  | null => exact absurd (hplain (List.all_eq_true.mp rfl)) h
  | number n => exact absurd (hplain fun c hc => number_plain (n.2.2 c hc)) h
  | boolean b =>
    cases b with
    | true => exact absurd (hplain (List.all_eq_true.mp rfl)) h
    | false => exact absurd (hplain (List.all_eq_true.mp rfl)) h
  | bits bs =>
    have hbits : ∀ c ∈ bitsText bs, plainChar c = true := by
      intro c hc
      obtain ⟨b, -, rfl⟩ := List.mem_map.mp hc
      cases b <;> rfl
    rw [depthAfter_bits] at h
    exact absurd (hplain hbits) h
  | text s | other s => exact ⟨s.toList, rfl⟩
  | unchangedToast => exact absurd (hplain (List.all_eq_true.mp rfl)) h

/-- The first token goes on from what has been begun. -/
theorem tokensOf_head {cur : List Char} (hsolid : Solid cur) (d : Nat) (items : List Item) :
    ∃ token rest, tokensOf keyword d cur items = token :: rest ∧ cur <+: token := by
  induction items generalizing d cur with
  | nil => exact ⟨cur, [], by rw [tokensOf, hsolid.push], List.prefix_refl cur⟩
  | cons i is ih =>
    rw [tokensOf]
    split
    · exact ⟨cur, _, hsolid.push _, List.prefix_refl cur⟩
    · obtain ⟨token, rest, htokens, hpre⟩ := ih (hsolid.append (solid_text i) [' '])
        (depthAfter d (i.text keyword))
      exact ⟨token, rest, htokens, (List.prefix_append _ _).trans hpre⟩

/-- If not every item is read by itself, a column has swallowed the one after it. -/
theorem exists_swallowed {columns : List PrintedColumn}
    (h : ¬ Closed keyword (columns.map .column)) :
    ∃ column ∈ columns, depthAfter 0 ((Item.column column).text keyword) ≠ 0 ∧
      ∃ tail, (Item.column column).text keyword ++ ' ' :: tail ∈
        tokensOf keyword 0 [] (columns.map .column) := by
  induction columns with
  | nil => exact absurd (fun i hi => by cases hi) h
  | cons column columns ih =>
    have hsolid := @solid_text keyword (.column column)
    rw [List.map_cons, tokensOf, if_pos rfl]
    -- the first column that does not close its brackets swallows the one after it
    by_cases hdepth : depthAfter 0 ((Item.column column).text keyword) = 0
    · have hrest : ¬ Closed keyword (columns.map .column) := by
        intro hclosed
        refine h fun i hi => ?_
        cases columns with
        | nil => cases hi
        | cons next columns =>
          rw [List.map_cons, List.map_cons, List.dropLast_cons_of_ne_nil (by simp),
            List.mem_cons] at hi
          rcases hi with rfl | hi
          · exact hdepth
          · exact hclosed i hi
      obtain ⟨swallower, hmem, hopen, tail, htoken⟩ := ih hrest
      refine ⟨swallower, List.mem_cons_of_mem _ hmem, hopen, tail, ?_⟩
      have hnext := @tokensOf_append keyword 0 [] rfl ((Item.column column).text keyword)
        (columns.map .column)
      rw [List.nil_append] at hnext
      rw [hdepth, hnext]
      exact List.mem_append_right _ htoken
    · cases columns with
      | nil => exact absurd (fun i hi => by cases hi) h
      | cons next columns =>
        have hmerged := hsolid.append (@solid_text keyword (.column next)) [' ']
        obtain ⟨token, rest, htokens, tail, rfl⟩ := tokensOf_head hmerged
          (depthAfter (depthAfter 0 ((Item.column column).text keyword))
            ((Item.column next).text keyword)) (columns.map .column)
        refine ⟨column, List.mem_cons_self, hdepth,
          (Item.column next).text keyword ++ tail, ?_⟩
        rw [List.map_cons, tokensOf, if_neg hdepth]
        rw [List.singleton_append] at htokens
        rw [htokens]
        simp [push]

/-- The value of a quoted literal that goes on after a blank keeps a quote. -/
theorem mem_sanitize {text tail : List Char} (h : Solid (quoted '\'' text ++ ' ' :: tail)) :
    '\'' ∈ sanitizeValue (quoted '\'' text ++ ' ' :: tail) := by
  have hinner : (quoted '\'' text ++ ' ' :: tail).tail.dropLast =
      double '\'' text ++ '\'' :: (' ' :: tail).dropLast := by
    have htail : (quoted '\'' text ++ ' ' :: tail).tail =
        double '\'' text ++ '\'' :: ' ' :: tail := by
      simp [quoted]
    rw [htail, List.dropLast_append_of_ne_nil (by simp), List.dropLast_cons_of_ne_nil (by simp)]
  simp only [sanitizeValue, h.trim, hinner]
  split
  · exact mem_undouble (by simp)
  · simp [quoted]

/-- Unless every column is read by itself, some field is a string with a quote. -/
theorem swallowed_entry {columns : List PrintedColumn}
    (hplain : ∀ column ∈ columns, PlainItem (.column column))
    (h : ¬ Closed keyword (columns.map .column)) :
    ∃ key s, (key, Value.string s) ∈ entriesOf (tokensOf keyword 0 [] (columns.map .column)) ∧
      '\'' ∈ s.toList := by
  obtain ⟨column, hcolumn, hopen, tail, htoken⟩ := exists_swallowed h
  obtain ⟨_, -, hsolid, -⟩ := exists_begun (tokensOf_start _) htoken
  obtain ⟨tail', heq, hvalue, hread⟩ := columnOf_begun (hplain column hcolumn)
    (⟨hsolid, List.prefix_append _ _⟩ : Begun keyword (.column column) _)
  obtain rfl := List.append_cancel_left heq
  rw [depthAfter_column (hplain column hcolumn)] at hopen
  obtain ⟨text, htext⟩ := quoted_of_open hopen
  rw [htext] at hvalue hread
  obtain ⟨s, hs, hquote⟩ := parseValue_quote (mem_sanitize hvalue)
  refine ⟨String.ofList (quoteIdentifier keyword column.name), s, ?_, hquote⟩
  refine List.mem_filterMap.mpr ⟨_, htoken, ?_⟩
  rw [hread, Option.map_some, hs]

/-! ## Keys -/

/-- Different names are printed differently. -/
theorem names_nodup {columns : List PrintedColumn} (hnames : (columns.map (·.name)).Nodup) :
    (columns.map fun column => String.ofList (quoteIdentifier keyword column.name)).Nodup := by
  have hinjective : Function.Injective fun name => String.ofList (quoteIdentifier keyword name) :=
    fun _ _ h => quoteIdentifier_injective (String.ofList_injective h)
  have hmap := hnames.map hinjective
  rwa [List.map_map] at hmap

/-- The names that are read are printed names, each once. -/
theorem keys_sublist {columns : List PrintedColumn}
    (hplain : ∀ column ∈ columns, PlainItem (.column column)) :
    ((entriesOf (tokensOf keyword 0 [] (columns.map .column))).map Prod.fst).Sublist
      (columns.map fun column => String.ofList (quoteIdentifier keyword column.name)) := by
  have htokens := @tokensOf_start keyword (columns.map .column)
  obtain ⟨begun, hbegun, hheads⟩ :=
    List.sublist_map_iff.mp (@heads_sublist keyword 0 (columns.map .column))
  rw [hheads] at htokens
  rw [entries_names (fun column hcolumn => hplain column (hbegun.subset hcolumn)) htokens]
  exact hbegun.map _

theorem keys_closed {columns : List PrintedColumn}
    (hplain : ∀ column ∈ columns, PlainItem (.column column))
    (h : Closed keyword (columns.map .column)) :
    (entriesOf (tokensOf keyword 0 [] (columns.map .column))).map Prod.fst =
      columns.map fun column => String.ofList (quoteIdentifier keyword column.name) := by
  rw [h.tokens, entries_closed hplain, List.map_map]
  rfl

/-- If a row in which some columns come last is made of pairs, each of these columns is one. -/
theorem names_subset {columns : List PrintedColumn}
    (hplain : ∀ column ∈ columns, PlainItem (.column column))
    (hnames : (columns.map (·.name)).Nodup) {before : Fields} {contents : List (List Char)}
    (hcontents : ∀ content ∈ contents, '\'' ∉ content)
    (hrows : Fields.insertAll before (entriesOf (tokensOf keyword 0 [] (columns.map .column))) =
      Fields.insertAll [] (pairsOf [] [] contents)) :
    columns.map (fun column => String.ofList (quoteIdentifier keyword column.name)) ⊆
      (pairsOf [] [] contents).map Prod.fst := by
  have hnodup := (keys_sublist hplain).nodup (@names_nodup keyword _ hnames)
  -- what is found in the row is one of the pairs
  have hpair {key : String} {v : Value}
      (h : (key, v) ∈ entriesOf (tokensOf keyword 0 [] (columns.map .column))) :
      (key, v) ∈ pairsOf [] [] contents := by
    have hget := Fields.get_insertAll_of_mem hnodup h before
    rw [hrows] at hget
    rcases Fields.mem_of_get_insertAll hget with hmem | hnone
    · exact hmem
    · cases hnone
  have hclosed : Closed keyword (columns.map .column) := by
    by_contra hopen
    obtain ⟨key, s, hmem, hquote⟩ := swallowed_entry hplain hopen
    exact pairsOf_no_quote List.not_mem_nil hcontents (hpair hmem) hquote
  intro name hname
  rw [← keys_closed hplain hclosed] at hname
  obtain ⟨⟨key, v⟩, hmem, rfl⟩ := List.mem_map.mp hname
  exact List.mem_map_of_mem (hpair hmem)

end

/-! ## Lines -/

section

variable (keyword : String → Bool)

/-- No name of the header has a colon, and the columns have plain names and types. -/
structure Plain (l : RowLine) : Prop where
  schema : ':' ∉ l.change.schema.toList
  table : ':' ∉ l.change.table.toList
  columns : ∀ column ∈ l.change.printed, PlainItem (.column column)
  key : ∀ key ∈ l.oldKey, ∀ column ∈ key, PlainItem (.column column)

/-- Both parsers return an event, with the same type, schema, table and data. -/
def Agree (lsn : String) (l : RowLine) : Prop :=
  ∃ e e', parseLogicalDecodingMessage (l.message keyword) = .ok (some (.cdc e)) ∧
    parseTestDecodingMessage lsn (l.message keyword) = .ok (some (.cdc e')) ∧
    e.eventType = e'.eventType ∧ e.schema = e'.schema ∧ e.table = e'.table ∧ e.data = e'.data

/-- The old key leaves a bracket open. -/
def OldKeyOpen (l : RowLine) : Prop :=
  ∃ key ∈ l.oldKey, depthAfter 0 (itemsText keyword (key.map .column)) ≠ 0

/-- The row of the columns that begin a token -/
def tokenRow (l : RowLine) : Fields :=
  Fields.insertAll [] (entriesOf (tokensOf keyword 0 [] l.rowItems))

/-- The row of the pairs of values -/
def pairRow (l : RowLine) : Fields :=
  Fields.insertAll [] (pairsOf [] [] (l.rowItems.map contentOf))

/-- The names have no dot, the old key leaves a bracket open, and the columns that are left by it
are the pairs of values. -/
structure Coincidence (l : RowLine) : Prop where
  schema : '.' ∉ l.change.schema.toList
  table : '.' ∉ l.change.table.toList
  oldKeyOpen : OldKeyOpen keyword l
  rows : tokenRow keyword l = pairRow l

end

section

variable {keyword : String → Bool}

theorem Plain.rowItems {l : RowLine} (h : Plain l) :
    ∀ i ∈ l.rowItems, PlainItem i ∧ i ≠ .noTuple ∧ i ≠ .oldKey := by
  intro i hi
  rw [RowLine.rowItems] at hi
  split at hi
  · obtain ⟨column, hcolumn, rfl⟩ := List.mem_map.mp hi
    exact ⟨h.columns column hcolumn, Item.noConfusion, Item.noConfusion⟩
  · next key hkey =>
    rcases List.mem_append.mp hi with hi | hi
    · obtain ⟨column, hcolumn, rfl⟩ := List.mem_map.mp hi
      exact ⟨h.key key hkey column hcolumn, Item.noConfusion, Item.noConfusion⟩
    · rcases List.mem_cons.mp hi with rfl | hi
      · exact ⟨trivial, Item.noConfusion, Item.noConfusion⟩
      · obtain ⟨column, hcolumn, rfl⟩ := List.mem_map.mp hi
        exact ⟨h.columns column hcolumn, Item.noConfusion, Item.noConfusion⟩

/-- The WAL consumer's parser makes the row of pairs, whether there is an old key or not. -/
theorem loop_row {l : RowLine} (h : Plain l) :
    (loop ⟨[], [], false, false, []⟩ (itemsText keyword l.items)).bind finish =
      .ok (pairRow l) := by
  have hitems : ∀ i ∈ l.rowItems, PlainItem i ∧ i ≠ .noTuple := fun i hi =>
    ⟨(h.rowItems i hi).1, (h.rowItems i hi).2.1⟩
  rw [RowLine.items]
  split
  · exact loop_line hitems
  · have hold : ∀ i ∈ Item.oldKey :: l.rowItems, PlainItem i ∧ i ≠ .noTuple := by
      intro i hi
      rcases List.mem_cons.mp hi with rfl | hi
      · exact ⟨trivial, Item.noConfusion⟩
      · exact hitems i hi
    exact loop_line hold

/-- The parser of the replication consumer makes the row of tokens. -/
theorem parseData_row {l : RowLine} (h : Plain l) :
    (parseData l.change.operation.eventType
      (tokenizeParts (Chars.trim (itemsText keyword l.items)))).map Prod.snd =
        some (tokenRow keyword l) := by
  have hkinds : ∀ i ∈ l.rowItems, i ≠ .oldKey := fun i hi => (h.rowItems i hi).2.2
  have hnew : "new-key:".toList ∉ tokensOf keyword 0 [] l.rowItems :=
    marker_not_mem hkinds (by decide) (by decide) (by decide)
  have hold : "old-key:".toList ∉ tokensOf keyword 0 [] l.rowItems :=
    marker_not_mem hkinds (by decide) (by decide) (by decide)
  have hrow : ∀ i ∈ l.rowItems, PlainItem i := fun i hi => (h.rowItems i hi).1
  rw [RowLine.items]
  split
  · rw [tokenizeParts_items hrow]
    exact parseData_fields hnew hold _
  · next hkey =>
    have hitems : ∀ i ∈ Item.oldKey :: l.rowItems, PlainItem i := by
      intro i hi
      rcases List.mem_cons.mp hi with rfl | hi
      · trivial
      · exact hrow i hi
    have htokens : tokensOf keyword 0 [] (.oldKey :: l.rowItems) =
        "old-key:".toList :: tokensOf keyword 0 [] l.rowItems :=
      @tokensOf_append keyword 0 [.oldKey] rfl [] l.rowItems
    rw [tokenizeParts_items hitems, htokens, l.isUpdate hkey]
    show some (parseUpdateData _).2 = _
    rw [parseUpdateData_oldKey, parseUpdateData_fields hnew hold]
    rfl

theorem newTuple_not_name (name : String) :
    String.ofList (quoteIdentifier keyword name) ≠ "new-tuple" := by
  intro h
  have hchars : quoteIdentifier keyword name = "new-tuple".toList := by
    rw [← h, String.toList_ofList]
  rw [quoteIdentifier] at hchars
  split at hchars
  · next hsafe =>
    have hdash := (isSafe_chars hsafe).2 '-' (by rw [hchars]; decide)
    exact absurd hdash (by decide)
  · exact absurd (List.cons.inj hchars).1 (by decide)

theorem newTuple_not_printed (keyword : String → Bool) (columns : List PrintedColumn) :
    "new-tuple" ∉ columns.map fun column =>
      String.ofList (quoteIdentifier keyword column.name) := by
  intro hmem
  obtain ⟨column, -, hname⟩ := List.mem_map.mp hmem
  exact newTuple_not_name column.name hname

/-- A row with the marker of the new tuple as a field has the field in any other form too. -/
theorem newTuple_mem {l : RowLine} (h : Plain l) {data : Fields} {pairs : List (String × Value)}
    (hrows : Fields.insertAll (Fields.insert "new-tuple" .null data)
      (entriesOf (tokensOf keyword 0 [] (l.change.printed.map .column))) =
      Fields.insertAll [] pairs) : "new-tuple" ∈ pairs.map Prod.fst := by
  have hnot : "new-tuple" ∉
      (entriesOf (tokensOf keyword 0 [] (l.change.printed.map .column))).map Prod.fst := by
    intro hmem
    exact newTuple_not_printed keyword _ ((keys_sublist h.columns).subset hmem)
  have hget := congrArg (fun data => Fields.get data "new-tuple") hrows
  simp only [Fields.get_insertAll_of_not_mem hnot, Fields.get_insert, if_true] at hget
  rcases Fields.mem_of_get_insertAll hget.symm with hmem | hnone
  · exact List.mem_map_of_mem hmem
  · cases hnone

/-- Where the old key closes its brackets, or there is none, the rows differ. -/
theorem rows_ne {l : RowLine} (h : Plain l) (hopen : ¬ OldKeyOpen keyword l) :
    tokenRow keyword l ≠ pairRow l := by
  intro hrows
  have hcontents : ∀ content ∈ l.rowItems.map contentOf, '\'' ∉ content := by
    intro content hcontent
    obtain ⟨i, -, rfl⟩ := List.mem_map.mp hcontent
    exact contentOf_no_quote i
  have hlength := length_pairsOf_start (l.rowItems.map contentOf)
  have hpositive := List.length_pos_of_ne_nil l.nonempty
  have hnodup := @names_nodup keyword _ l.change.printed_nodup
  cases hkey : l.oldKey with
  | none =>
    have hitems : l.rowItems = l.change.printed.map .column := by rw [RowLine.rowItems, hkey]
    rw [tokenRow, pairRow, hitems] at hrows
    rw [hitems] at hcontents hlength
    have hsubset := names_subset h.columns l.change.printed_nodup hcontents hrows
    have hle := (hnodup.subperm hsubset).length_le
    simp only [List.length_map] at hle hlength
    omega
  | some key =>
    have hitems : l.rowItems = key.map .column ++ .newTuple :: l.change.printed.map .column := by
      rw [RowLine.rowItems, hkey]
    have hclosed : depthAfter 0 (itemsText keyword (key.map .column)) = 0 := by
      by_contra hdepth
      exact hopen ⟨key, hkey, hdepth⟩
    -- the new tuple is read by itself, and its marker as a field that is null
    have htokens : tokensOf keyword 0 [] l.rowItems = tokensOf keyword 0 [] (key.map .column) ++
        "new-tuple:".toList :: tokensOf keyword 0 [] (l.change.printed.map .column) := by
      have hmarker := @tokensOf_append keyword 0 [.newTuple] rfl [] (l.change.printed.map .column)
      rw [hitems, tokensOf_append hclosed]
      exact congrArg _ hmarker
    have hfield : columnOf "new-tuple:".toList = some ("new-tuple", []) := rfl
    have hentries : tokenRow keyword l =
        Fields.insertAll (Fields.insert "new-tuple" .null
          (Fields.insertAll [] (entriesOf (tokensOf keyword 0 [] (key.map .column)))))
          (entriesOf (tokensOf keyword 0 [] (l.change.printed.map .column))) := by
      rw [tokenRow, htokens, entriesOf_append, entriesOf_cons, hfield, Fields.insertAll_append]
      rfl
    rw [hentries, pairRow] at hrows
    have hsubset := names_subset h.columns l.change.printed_nodup hcontents hrows
    have hnew := newTuple_mem h hrows
    have hfresh := newTuple_not_printed keyword l.change.printed
    have hle := ((List.nodup_cons.mpr ⟨hfresh, hnodup⟩).subperm
      (List.cons_subset.mpr ⟨hnew, hsubset⟩)).length_le
    have hkeyLength := RowLine.length_key hkey
    rw [hitems] at hle hlength
    simp only [List.length_map, List.length_cons, List.length_append] at hle hlength
    omega

/-! ## Agreement -/

/-- Quoting keeps a dot and a colon, and adds none. -/
theorem separator_mem_iff (keyword : String → Bool) {c : Char} (hc : c ≠ '"') (name : String) :
    c ∈ quoteIdentifier keyword name ↔ c ∈ name.toList := by
  constructor
  · intro h
    rcases mem_quoteIdentifier h with h | heq
    · exact h
    · exact absurd heq hc
  · intro h
    rw [quoteIdentifier]
    split
    · exact h
    · refine List.mem_cons_of_mem _ (List.mem_append_left _ ?_)
      exact List.mem_flatMap.mpr ⟨c, h, by simp [hc]⟩

theorem Plain.no_colon {l : RowLine} (h : Plain l) (keyword : String → Bool) :
    ':' ∉ quoteIdentifier keyword l.change.schema ∧
      ':' ∉ quoteIdentifier keyword l.change.table := by
  have hne : ':' ≠ '"' := by decide
  rw [separator_mem_iff keyword hne, separator_mem_iff keyword hne]
  exact ⟨h.schema, h.table⟩

/-- What the parser of the replication consumer returns for a table without a dot -/
theorem test_row {l : RowLine} (h : Plain l) (hdot : '.' ∉ l.change.table.toList) (lsn : String) :
    parseTestDecodingMessage lsn (l.message keyword) =
      .ok (some (.cdc ⟨l.change.operation.eventType,
        String.ofList (quoteIdentifier keyword l.change.table),
        String.ofList (quoteIdentifier keyword l.change.schema), tokenRow keyword l,
        some (.postgreSQL lsn)⟩)) := by
  obtain ⟨hschema, htable⟩ := h.no_colon keyword
  rw [RowLine.message, TestDecoder.parse_line hschema htable lsn l.change.operation l.items
    (parseData_row h), schemaAndTable_quoted _ hdot]

/-- What the parser of the WAL consumer returns for names without a dot -/
theorem wal_row {l : RowLine} (h : Plain l) (hdot : '.' ∉ l.change.schema.toList)
    (hdot' : '.' ∉ l.change.table.toList) :
    parseLogicalDecodingMessage (l.message keyword) =
      .ok (some (.cdc ⟨l.change.operation.eventType,
        String.ofList (quoteIdentifier keyword l.change.table),
        String.ofList (quoteIdentifier keyword l.change.schema), pairRow l, none⟩)) := by
  obtain ⟨hschema, htable⟩ := h.no_colon keyword
  have hne : '.' ≠ '"' := by decide
  rw [← separator_mem_iff keyword hne] at hdot hdot'
  rw [RowLine.message, WalConsumer.parse_line hschema htable l.change.operation (loop_row h),
    split_names hdot hdot']

theorem wal_dot {l : RowLine} (h : Plain l)
    (hdot : '.' ∈ l.change.schema.toList ∨ '.' ∈ l.change.table.toList) :
    parseLogicalDecodingMessage (l.message keyword) = .ok none := by
  obtain ⟨hschema, htable⟩ := h.no_colon keyword
  have hne : '.' ≠ '"' := by decide
  rw [← separator_mem_iff keyword hne, ← separator_mem_iff keyword hne l.change.table] at hdot
  rw [RowLine.message, WalConsumer.parse_line hschema htable l.change.operation (loop_row h)]
  split
  · next hsplit => exact absurd hsplit (split_names_dot hdot)
  · rfl

theorem Agree.coincidence {lsn : String} {l : RowLine} (hagree : Agree keyword lsn l)
    (h : Plain l) : Coincidence keyword l := by
  obtain ⟨e, e', hwal, htest, -, -, -, hdata⟩ := hagree
  have hdots : '.' ∉ l.change.schema.toList ∧ '.' ∉ l.change.table.toList := by
    rw [← not_or]
    intro hdot
    rw [wal_dot h hdot] at hwal
    cases hwal
  rw [wal_row h hdots.1 hdots.2] at hwal
  rw [test_row h hdots.2] at htest
  cases hwal
  cases htest
  refine ⟨hdots.1, hdots.2, ?_, hdata.symm⟩
  by_contra hopen
  exact rows_ne h hopen hdata.symm

/-- On plain lines the parsers agree only by coincidence, and without an old key never. -/
theorem agree_iff (keyword : String → Bool) (lsn : String) {l : RowLine} (h : Plain l) :
    Agree keyword lsn l ↔ Coincidence keyword l := by
  constructor
  · intro hagree
    exact hagree.coincidence h
  · intro hrows
    exact ⟨_, _, wal_row h hrows.schema hrows.table, test_row h hrows.table lsn, rfl, rfl, rfl,
      hrows.rows.symm⟩

/-- An update whose old key leaves a bracket open up to the new value of `head` -/
def labels : RowLine where
  change := ⟨"public", "labels", .update, [⟨"head", "text", .text "label[]]"⟩,
    ⟨"label", "text", .text "new"⟩, ⟨"tag", "text", .text "red"⟩], by decide⟩
  oldKey := some [⟨"label", "text", .text "tag["⟩, ⟨"tag", "text", .text "red"⟩]
  isUpdate := fun _ => rfl
  keyNames := by decide
  nonempty := by decide

/-- Both parsers read the new `label` and `tag` of it. -/
theorem labels_agree : Agree (fun _ => false) "0/10" labels := by
  have htext : PlainType "text" := ⟨"text".toList, List.all_eq_true.mp rfl, Or.inl rfl⟩
  have hlabel : PlainName "label" := List.all_eq_true.mp rfl
  have htag : PlainName "tag" := List.all_eq_true.mp rfl
  have hplain : Plain labels := by
    refine ⟨by decide, by decide, ?_, ?_⟩
    · intro column hcolumn
      have hmem : column ∈ labels.change.columns := labels.change.printed_sublist.subset hcolumn
      simp only [labels, List.mem_cons, List.not_mem_nil, or_false] at hmem
      rcases hmem with rfl | rfl | rfl
      · exact ⟨List.all_eq_true.mp rfl, htext⟩
      · exact ⟨hlabel, htext⟩
      · exact ⟨htag, htext⟩
    · intro key hkey column hcolumn
      obtain rfl := Option.some.inj hkey
      simp only [List.mem_cons, List.not_mem_nil, or_false] at hcolumn
      rcases hcolumn with rfl | rfl
      · exact ⟨hlabel, htext⟩
      · exact ⟨htag, htext⟩
  exact (agree_iff (fun _ => false) "0/10" hplain).mpr
    ⟨by decide, by decide, ⟨_, rfl, by decide⟩, rfl⟩

/-- The row `id[integer]:1`, inserted -/
def users : RowLine where
  change := ⟨"public", "users", .insert,
    [⟨"id", "integer", .number ⟨['1'], by decide, List.forall_mem_singleton.mpr (by decide)⟩⟩],
    by decide⟩
  oldKey := none
  isUpdate := fun h => absurd rfl h
  keyNames := by simp
  nonempty := by decide

theorem users_disagree : ¬ Agree (fun _ => false) "0/10" users := by
  intro h
  have hplain : Plain users := by
    refine ⟨by decide, by decide, ?_, ?_⟩
    · intro column hcolumn
      obtain rfl := List.mem_singleton.mp hcolumn
      exact ⟨List.all_eq_true.mp rfl, "integer".toList, List.all_eq_true.mp rfl, Or.inl rfl⟩
    · intro key hkey
      cases hkey
  obtain ⟨key, hkey, -⟩ := (h.coincidence hplain).oldKeyOpen
  cases hkey

end

end DecoderAgreement

end MeiliBridge
