import Mathlib.Algebra.Order.BigOperators.Group.List
import Mathlib.Data.List.Perm.Subperm
import MeiliBridge.Source.TestDecoderLine

/-!
# When a change is read back

What `parse_test_decoding_message` returns for the line of a change against the change. Quoted
identifiers keep their quotes, a value is read by its text alone, whether it was in quotes or not,
and an open bracket in a value swallows the columns after it.
-/

set_option autoImplicit false

namespace MeiliBridge

open TestDecoding

namespace TestDecoder

/-! ## Values -/

/-- Quotes that were doubled are single again. -/
theorem undouble_double (cs : List Char) : Chars.undouble (double '\'' cs) = cs := by
  induction cs with
  | nil => rfl
  | cons c cs ih =>
    by_cases hquote : c = '\''
    · subst hquote
      rw [double_cons_self, Chars.undouble, ih]
    · rw [double_cons_ne hquote, Chars.undouble, ih]
      intro _ hc _
      exact hquote hc

theorem sanitize_quoted (cs : List Char) : sanitizeValue (quoted '\'' cs) = cs := by
  have hsolid : Solid (quoted '\'' cs) := solid_quoted rfl cs
  have hlast : (quoted '\'' cs).getLast? = some '\'' := by
    rw [quoted, ← List.cons_append, List.getLast?_concat]
  have hlength : 2 ≤ (quoted '\'' cs).length := by
    simp only [quoted, List.length_cons, List.length_append, List.length_nil]
    omega
  have hinner : (quoted '\'' cs).tail.dropLast = double '\'' cs := List.dropLast_concat
  simp only [sanitizeValue, hsolid.trim, hinner]
  rw [if_pos ⟨rfl, hlast, hlength⟩, undouble_double]

/-- What is not in quotes stays. -/
theorem sanitize_solid {cs : List Char} (hsolid : Solid cs) (h : cs.head? ≠ some '\'') :
    sanitizeValue cs = cs := by
  simp only [sanitizeValue, hsolid.trim]
  rw [if_neg fun hq => h hq.1]

/-- A word that is read as null is no number. -/
theorem null_no_number {cs : List Char} (h : Chars.eqIgnoreAsciiCase cs "null".toList = true) :
    Chars.parseI64 cs = none ∧ F64.parse (String.ofList cs) = none := by
  have hlower : cs.map Char.toLower = "null".toList := beq_iff_eq.mp h
  have hu : 'u' ∈ cs.map Char.toLower := by
    rw [hlower]
    decide
  obtain ⟨c, hc, hcu⟩ := List.mem_map.mp hu
  have hforeign : Chars.Foreign c := by
    rw [Chars.Foreign, hcu]
    decide
  have hnumber := hforeign.no_number (s := String.ofList cs) (by rwa [String.toList_ofList])
  rwa [String.toList_ofList] at hnumber

/-- The texts that are read as null -/
def NullText (cs : List Char) : Prop :=
  Chars.trim cs = [] ∨ Chars.eqIgnoreAsciiCase (Chars.trim cs) "null".toList = true

theorem parseValue_null_iff (cs : List Char) : parseValue cs = .null ↔ NullText cs := by
  constructor
  · intro h
    simp only [parseValue] at h
    split at h
    · next hempty => exact Or.inl hempty
    · split at h
      · cases h
      · split at h
        · cases h
        · split at h
          · cases h
          · split at h
            · cases h
            · split at h
              · next hnull => exact Or.inr hnull
              · cases h
  · rintro (hempty | hnull)
    · simp [parseValue, hempty]
    · obtain ⟨hinteger, hfloat⟩ := null_no_number hnull
      have hlower : (Chars.trim cs).map Char.toLower = "null".toList := beq_iff_eq.mp hnull
      have htrue : ¬ Chars.eqIgnoreAsciiCase (Chars.trim cs) "true".toList = true := by
        rw [Chars.eqIgnoreAsciiCase, hlower]
        decide
      have hfalse : ¬ Chars.eqIgnoreAsciiCase (Chars.trim cs) "false".toList = true := by
        rw [Chars.eqIgnoreAsciiCase, hlower]
        decide
      simp only [parseValue, hinteger, hfloat, if_neg htrue, if_neg hfalse, if_pos hnull, ite_self]

/-- The texts that are read as themselves -/
structure OwnText (s : String) : Prop where
  nonempty : s.toList ≠ []
  trimmed : Chars.trim s.toList = s.toList
  integer : Chars.parseI64 s.toList = none
  float : ∀ x, F64.parse s ≠ some (.finite x)
  noTrue : ¬ Chars.eqIgnoreAsciiCase s.toList "true".toList = true
  noFalse : ¬ Chars.eqIgnoreAsciiCase s.toList "false".toList = true
  noNull : ¬ Chars.eqIgnoreAsciiCase s.toList "null".toList = true

theorem parseValue_string_iff (s : String) : parseValue s.toList = .string s ↔ OwnText s := by
  constructor
  · intro h
    simp only [parseValue] at h
    split at h
    · cases h
    · next hne =>
      split at h
      · cases h
      · next hinteger =>
        split at h
        · cases h
        · next hfloat =>
          split at h
          · cases h
          · next htrue =>
            split at h
            · cases h
            · next hfalse =>
              split at h
              · cases h
              · next hnull =>
                have hs : String.ofList (Chars.trim s.toList) = s := Value.string.inj h
                have htrim : Chars.trim s.toList = s.toList := by
                  rw [← String.toList_ofList (l := Chars.trim s.toList), hs]
                rw [htrim] at hne hinteger htrue hfalse hnull
                rw [hs] at hfloat
                exact ⟨hne, htrim, hinteger, hfloat, htrue, hfalse, hnull⟩
  · rintro ⟨hne, htrim, hinteger, hfloat, htrue, hfalse, hnull⟩
    simp only [parseValue, htrim, if_neg hne, hinteger, if_neg htrue, if_neg hfalse, if_neg hnull,
      String.ofList_toList]

/-- The value is null exactly for NULL, and that of a textual type is its text. -/
def ReadsBack (datum : Datum) (v : Value) : Prop :=
  (v = .null ↔ datum = .null) ∧ ∀ s, datum = .text s → v = .string s

/-- The condition on a datum to be read back from its literal -/
def Legible : Datum → Prop
  | .text s => OwnText s
  | .other s => ¬ NullText s.toList
  | _ => True

/-- What a numeric type prints is not read as null. -/
theorem number_not_null (n : NumberText) : ¬ NullText n.val := by
  have hsolid : Solid n.val := solid_literal (.number n)
  rintro (hempty | hnull)
  · rw [hsolid.trim] at hempty
    exact hsolid.1 hempty
  · rw [hsolid.trim] at hnull
    have hlower : n.val.map Char.toLower = "null".toList := beq_iff_eq.mp hnull
    have hu : 'u' ∈ n.val.map Char.toLower := by
      rw [hlower]
      decide
    have hnumber : 'u' ∉ numberChars.map Char.toLower := by decide
    exact hnumber (List.map_subset Char.toLower n.2.2 hu)

theorem bits_not_null (bs : List Bool) : ¬ NullText (Datum.bits bs).literal := by
  have hsolid := solid_literal (.bits bs)
  rintro (hempty | hnull)
  · rw [hsolid.trim] at hempty
    exact hsolid.1 hempty
  · rw [hsolid.trim, bits_literal] at hnull
    have hlower := List.cons.inj (beq_iff_eq.mp hnull)
    exact absurd hlower.1 (by decide)

theorem readsBack_iff (datum : Datum) :
    ReadsBack datum (parseValue (sanitizeValue datum.literal)) ↔ Legible datum := by
  have hsolid := solid_literal datum
  -- what is printed without quotes only has to be no null; what is in quotes is guessed at
  cases datum with
  | null =>
    have hnull : parseValue (sanitizeValue Datum.null.literal) = .null := by
      rw [sanitize_solid hsolid (by decide), parseValue_null_iff]
      exact Or.inr (by decide)
    simp [ReadsBack, Legible, hnull]
  | number n =>
    have hhead : n.val.head? ≠ some '\'' := by
      intro hquote
      have hmem := number_plain (n.2.2 _ (List.mem_of_mem_head? hquote))
      exact absurd hmem (by decide)
    have hnull : parseValue (sanitizeValue (Datum.number n).literal) ≠ .null := by
      rw [sanitize_solid hsolid hhead, Ne, parseValue_null_iff]
      exact number_not_null n
    simp [ReadsBack, Legible, hnull]
  | boolean b =>
    have hnull : parseValue (sanitizeValue (Datum.boolean b).literal) ≠ .null := by
      rw [sanitize_solid hsolid (by cases b <;> decide), Ne, parseValue_null_iff, NullText,
        hsolid.trim]
      cases b <;> decide
    simp [ReadsBack, Legible, hnull]
  | bits bs =>
    have hnull : parseValue (sanitizeValue (Datum.bits bs).literal) ≠ .null := by
      rw [sanitize_solid hsolid (by simp [bits_literal]), Ne, parseValue_null_iff]
      exact bits_not_null bs
    simp [ReadsBack, Legible, hnull]
  | text s =>
    rw [text_literal, sanitize_quoted, Legible, ← parseValue_string_iff]
    constructor
    · intro h
      exact h.2 s rfl
    · intro h
      simp [ReadsBack, h]
  | other s =>
    rw [other_literal, sanitize_quoted, Legible, ← parseValue_null_iff]
    simp [ReadsBack]
  | unchangedToast =>
    have hnull : parseValue (sanitizeValue Datum.unchangedToast.literal) ≠ .null := by
      rw [sanitize_solid hsolid (by decide), Ne, parseValue_null_iff, NullText, hsolid.trim]
      decide
    simp [ReadsBack, Legible, hnull]

/-! ## Changes -/

section

variable (keyword : String → Bool)

/-- An event has what the change has: a NULL that is not printed has no value. -/
def Returned (c : Change) (e : CdcEvent) : Prop :=
  e.schema = c.schema ∧ e.table = c.table ∧ e.eventType = c.operation.eventType ∧
    ∀ column ∈ c.columns,
      if column ∈ c.printed then
        ∃ v, e.data.get column.name = some v ∧ ReadsBack column.datum v
      else e.data.get column.name = none

/-- The change is read back from its line. -/
def RoundTrip (lsn : String) (c : Change) : Prop :=
  ∃ e, parseTestDecodingMessage lsn (c.message keyword) = .ok (some (.cdc e)) ∧ Returned c e

/-- The printed columns have plain names and types. -/
def Plain (c : Change) : Prop :=
  ∀ column ∈ c.printed, PlainName column.name ∧ PlainType column.typeName

/-- No identifier needs quotes, every value but the last closes the brackets that it opens, and
every value is read by its text as what it is. -/
structure Readable (c : Change) : Prop where
  plain : Plain c
  schema : isSafe keyword c.schema = true
  table : isSafe keyword c.table = true
  names : ∀ column ∈ c.printed, isSafe keyword column.name = true
  closed : ∀ column ∈ c.printed.dropLast, depthAfter 0 column.datum.literal = 0
  values : ∀ column ∈ c.printed, Legible column.datum

end

section

variable {keyword : String → Bool}

theorem items_kind (c : Change) {i : Item} (hi : i ∈ c.items) :
    (∃ column ∈ c.printed, i = .column column) ∨ i = .noTuple := by
  rw [Change.items] at hi
  split at hi
  · exact Or.inr (List.mem_singleton.mp hi)
  · obtain ⟨column, hcolumn, rfl⟩ := List.mem_map.mp hi
    exact Or.inl ⟨column, hcolumn, rfl⟩

/-- The data that are read from the tokens of a change -/
def dataOf (keyword : String → Bool) (c : Change) : Fields :=
  Fields.insertAll [] (entriesOf (tokensOf keyword 0 [] c.items))

/-- What is returned for a change whose names of the header hold no colon, and the table no dot. -/
theorem parse_change {c : Change} (hplain : Plain c) (hschema : ':' ∉ c.schema.toList)
    (htable : ':' ∉ c.table.toList) (hdot : '.' ∉ c.table.toList) (lsn : String) :
    parseTestDecodingMessage lsn (c.message keyword) =
      .ok (some (.cdc ⟨c.operation.eventType, String.ofList (quoteIdentifier keyword c.table),
        String.ofList (quoteIdentifier keyword c.schema), dataOf keyword c,
        some (.postgreSQL lsn)⟩)) := by
  have hcolon {name : String} (h : ':' ∉ name.toList) : ':' ∉ quoteIdentifier keyword name := by
    intro hmem
    rcases mem_quoteIdentifier hmem with hmem | heq
    · exact h hmem
    · cases heq
  have hitems : ∀ i ∈ c.items, PlainItem i := by
    intro i hi
    rcases items_kind c hi with ⟨column, hcolumn, rfl⟩ | rfl
    · exact hplain column hcolumn
    · trivial
  have hkinds : ∀ i ∈ c.items, i ≠ .oldKey := by
    intro i hi
    rcases items_kind c hi with ⟨column, -, rfl⟩ | rfl
    · exact Item.noConfusion
    · exact Item.noConfusion
  have hnew : "new-key:".toList ∉ tokensOf keyword 0 [] c.items :=
    marker_not_mem hkinds (by decide) (by decide) (by decide)
  have hold : "old-key:".toList ∉ tokensOf keyword 0 [] c.items :=
    marker_not_mem hkinds (by decide) (by decide) (by decide)
  have hfields := parseData_fields hnew hold c.operation
  rw [← tokenizeParts_items hitems] at hfields
  rw [Change.message, parse_line (hcolon hschema) (hcolon htable) lsn c.operation c.items hfields,
    schemaAndTable_quoted _ hdot, dataOf, tokenizeParts_items hitems]

/-! ## Reading back -/

/-- Names that are printed with as many characters as they have are printed as they are. -/
theorem names_safe {columns : List PrintedColumn}
    (h : (columns.map fun c => c.name.toList.length).sum =
      (columns.map fun c => (quoteIdentifier keyword c.name).length).sum) :
    ∀ column ∈ columns, isSafe keyword column.name = true := by
  by_contra hunsafe
  push Not at hunsafe
  obtain ⟨column, hcolumn, hname⟩ := hunsafe
  refine absurd h (Nat.ne_of_lt (List.sum_lt_sum _ _ (fun c _ => ?_) ⟨column, hcolumn, ?_⟩))
  · rcases @length_quoteIdentifier keyword c.name with heq | hlt
    · exact heq.1.ge
    · omega
  · rcases @length_quoteIdentifier keyword column.name with heq | hlt
    · exact absurd heq.2 hname
    · omega

theorem closed_iff {c : Change} (hplain : Plain c) :
    Closed keyword (c.printed.map .column) ↔
      ∀ column ∈ c.printed.dropLast, depthAfter 0 column.datum.literal = 0 := by
  have hdepth : ∀ column ∈ c.printed.dropLast,
      depthAfter 0 ((Item.column column).text keyword) = depthAfter 0 column.datum.literal :=
    fun column hcolumn => depthAfter_column (hplain column (List.dropLast_subset _ hcolumn))
  rw [Closed, ← List.map_dropLast, List.forall_mem_map]
  exact forall₂_congr fun column hcolumn => by rw [hdepth column hcolumn]

/-- Every printed name is found: then no name is in quotes and every item begins a token. -/
theorem found_names {c : Change} (hplain : Plain c) (hitems : c.items = c.printed.map .column)
    (h : ∀ column ∈ c.printed, (dataOf keyword c).get column.name ≠ none) :
    (∀ column ∈ c.printed, isSafe keyword column.name = true) ∧
      Closed keyword (c.printed.map .column) := by
  have htokens := @tokensOf_start keyword c.items
  have hsublist := @heads_sublist keyword 0 c.items
  nth_rewrite 2 [hitems] at hsublist
  obtain ⟨begun, hbegun, hheads⟩ := List.sublist_map_iff.mp hsublist
  rw [hheads] at htokens
  have hkeys := entries_names (fun column hcolumn => hplain column (hbegun.subset hcolumn)) htokens
  -- the printed names are different, and each is one of the names that were read
  have hnodup : (c.printed.map (·.name)).Nodup :=
    c.printed_nodup
  have hsubset : c.printed.map (·.name) ⊆
      begun.map fun column => String.ofList (quoteIdentifier keyword column.name) := by
    intro name hname
    obtain ⟨column, hcolumn, rfl⟩ := List.mem_map.mp hname
    by_contra hmem
    rw [← hkeys] at hmem
    exact h column hcolumn (Fields.get_insertAll_of_not_mem hmem [])
  have hsubperm := hnodup.subperm hsubset
  have hlength := hsubperm.length_le
  rw [List.length_map, List.length_map] at hlength
  obtain rfl : begun = c.printed := hbegun.eq_of_length_le hlength
  have hperm := hsubperm.perm_of_length_le (by simp)
  constructor
  · have hlengths := (hperm.map fun name => name.toList.length).sum_nat
    simp only [List.map_map, Function.comp_def, String.toList_ofList] at hlengths
    exact names_safe hlengths
  · rw [← hitems]
    refine closed_of_heads ?_
    rw [hheads, hitems]

/-- With plain names and closed brackets each value is read from its own literal. -/
theorem data_get {c : Change} (hplain : Plain c) (hitems : c.items = c.printed.map .column)
    (hnames : ∀ column ∈ c.printed, isSafe keyword column.name = true)
    (hclosed : Closed keyword (c.printed.map .column)) {column : PrintedColumn}
    (hcolumn : column ∈ c.columns) :
    (dataOf keyword c).get column.name =
      if column ∈ c.printed then some (parseValue (sanitizeValue column.datum.literal))
      else none := by
  have hentries : entriesOf (tokensOf keyword 0 [] c.items) =
      c.printed.map fun column =>
        (column.name, parseValue (sanitizeValue column.datum.literal)) := by
    rw [hitems, hclosed.tokens, entries_closed hplain]
    refine List.map_congr_left fun column hcolumn => ?_
    rw [(quoteIdentifier_eq_iff column.name).mpr (hnames column hcolumn), String.ofList_toList]
  have hkeys : (entriesOf (tokensOf keyword 0 [] c.items)).map Prod.fst =
      c.printed.map (·.name) := by
    rw [hentries, List.map_map]
    rfl
  have hnodup : (c.printed.map (·.name)).Nodup :=
    c.printed_nodup
  split
  · next hprinted =>
    refine Fields.get_insertAll_of_mem (hkeys ▸ hnodup) ?_ []
    rw [hentries]
    exact List.mem_map_of_mem hprinted
  · next hprinted =>
    refine Fields.get_insertAll_of_not_mem ?_ []
    rw [hkeys]
    intro hmem
    obtain ⟨other, hother, hname⟩ := List.mem_map.mp hmem
    have heq := List.inj_on_of_nodup_map c.distinct (c.printed_sublist.subset hother) hcolumn hname
    exact hprinted (heq ▸ hother)

/-- A safe name has neither a colon nor a dot. -/
theorem safe_no_separator {name : String} (h : isSafe keyword name = true) :
    ':' ∉ name.toList ∧ '.' ∉ name.toList := by
  have hchars := (isSafe_chars h).2
  constructor
  · intro hmem
    exact absurd (hchars _ hmem) (by decide)
  · intro hmem
    exact absurd (hchars _ hmem) (by decide)

/-- A name that is returned as it was printed is safe. -/
theorem safe_of_returned {name : String} (h : String.ofList (quoteIdentifier keyword name) = name) :
    isSafe keyword name = true := by
  rw [← quoteIdentifier_eq_iff]
  have hlist := congrArg String.toList h
  rwa [String.toList_ofList] at hlist

theorem RoundTrip.readable {lsn : String} {c : Change} (h : RoundTrip keyword lsn c)
    (hplain : Plain c) : Readable keyword c := by
  obtain ⟨e, hparse, hschema, htable, -, hcolumns⟩ := h
  obtain ⟨hschemaColon, htableColon, htableDot⟩ := parse_names hparse
  rw [hschema] at hschemaColon
  rw [htable] at htableColon htableDot
  rw [parse_change hplain hschemaColon htableColon htableDot] at hparse
  obtain rfl := Event.cdc.inj (Option.some.inj (Except.ok.inj hparse))
  by_cases hnone : c.operation = .delete ∧ c.columns = []
  · -- nothing is printed
    have hprinted : c.printed = [] := by
      rw [← List.sublist_nil, ← hnone.2]
      exact c.printed_sublist
    exact ⟨hplain, safe_of_returned hschema, safe_of_returned htable, by simp [hprinted],
      by simp [hprinted], by simp [hprinted]⟩
  · have hitems : c.items = c.printed.map .column := if_neg hnone
    have hfound : ∀ column ∈ c.printed, ∃ v, (dataOf keyword c).get column.name = some v ∧
        ReadsBack column.datum v := by
      intro column hcolumn
      have hread := hcolumns column (c.printed_sublist.subset hcolumn)
      rwa [if_pos hcolumn] at hread
    have hsome : ∀ column ∈ c.printed, (dataOf keyword c).get column.name ≠ none := by
      intro column hcolumn
      obtain ⟨v, hv, -⟩ := hfound column hcolumn
      simp [hv]
    obtain ⟨hnames, hclosed⟩ := found_names hplain hitems hsome
    refine ⟨hplain, safe_of_returned hschema, safe_of_returned htable, hnames,
      (closed_iff hplain).mp hclosed, fun column hcolumn => ?_⟩
    obtain ⟨v, hv, hreads⟩ := hfound column hcolumn
    rw [data_get hplain hitems hnames hclosed (c.printed_sublist.subset hcolumn),
      if_pos hcolumn] at hv
    obtain rfl := Option.some.inj hv
    exact (readsBack_iff _).mp hreads

theorem Readable.roundTrip {c : Change} (h : Readable keyword c) (lsn : String) :
    RoundTrip keyword lsn c := by
  obtain ⟨htableColon, htableDot⟩ := safe_no_separator h.table
  have hparse := @parse_change keyword c h.plain (safe_no_separator h.schema).1 htableColon
    htableDot lsn
  refine ⟨_, hparse, ?_, ?_, rfl, fun column hcolumn => ?_⟩
  · rw [(quoteIdentifier_eq_iff _).mpr h.schema, String.ofList_toList]
  · rw [(quoteIdentifier_eq_iff _).mpr h.table, String.ofList_toList]
  · have hitems : c.items = c.printed.map .column := by
      refine if_neg fun hnone => ?_
      rw [hnone.2] at hcolumn
      cases hcolumn
    have hget := data_get h.plain hitems h.names ((closed_iff h.plain).mpr h.closed) hcolumn
    by_cases hprinted : column ∈ c.printed
    · rw [if_pos hprinted] at hget ⊢
      exact ⟨_, hget, (readsBack_iff _).mpr (h.values column hprinted)⟩
    · rwa [if_neg hprinted] at hget ⊢

/-- A change with plain names and types is read back if and only if it is readable. -/
theorem roundTrip_iff (keyword : String → Bool) (lsn : String) (c : Change) :
    RoundTrip keyword lsn c ∧ Plain c ↔ Readable keyword c := by
  constructor
  · rintro ⟨hround, hplain⟩
    exact hround.readable hplain
  · intro h
    exact ⟨h.roundTrip lsn, h.plain⟩

/-- The text of three digits comes back as a number. -/
theorem digits_not_read_back : ¬ RoundTrip (fun _ => false) "0/10"
    ⟨"public", "books", .insert, [⟨"code", "text", .text "123"⟩], by decide⟩ := by
  intro h
  have hplain : Plain ⟨"public", "books", .insert, [⟨"code", "text", .text "123"⟩], by decide⟩ := by
    intro column hcolumn
    obtain rfl := List.mem_singleton.mp hcolumn
    exact ⟨List.all_eq_true.mp rfl, "text".toList, List.all_eq_true.mp rfl, Or.inl rfl⟩
  have htext : Legible (.text "123") := (h.readable hplain).values _ (List.mem_singleton_self _)
  exact absurd htext.integer (by decide)

end

end TestDecoder

end MeiliBridge
