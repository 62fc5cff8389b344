import MeiliBridge.Source.TestDecoderLine
import MeiliBridge.Source.WalConsumer

/-!
# How the WAL consumer's parser reads a line

An item of a line leaves behind its literal without the quotes. A bracket gets into a value only
between quotes, so a column becomes a field only if the value before it has one, and then under what
stands before that bracket: the columns of a line are read in pairs.
-/

set_option autoImplicit false

namespace MeiliBridge

open TestDecoding TestDecoder

namespace WalConsumer

/-! ## Characters -/

theorem loop_cons {s : Loop} {c : Char} (s' : Loop) (h : step s c = .ok s') (cs : List Char) :
    loop s (c :: cs) = loop s' cs := by
  rw [loop, h]
  rfl

theorem loop_append (s : Loop) (cs ds : List Char) :
    loop s (cs ++ ds) = (loop s cs).bind fun s => loop s ds := by
  induction cs generalizing s with
  | nil => rfl
  | cons c cs ih =>
    rw [List.cons_append, loop, loop]
    cases hstep : step s c with
    | error e => rfl
    | ok s' => exact ih s'

variable (field value : List Char) (data : Fields)

/-- A character that is no delimiter is collected. -/
theorem step_collect {c : Char} {q b : Bool} (hopen : c = '[' ∨ c = ']' → q = true)
    (hquote : c = '\'' → b = true) (hcolon : c = ':' → q = true ∨ b = true ∨ field ≠ [])
    (hblank : c = ' ' → q = true ∨ field = []) :
    step ⟨field, value, q, b, data⟩ c = .ok ⟨field, value ++ [c], q, b, data⟩ := by
  have hno1 : ¬ (c = '[' ∧ q = false) := fun h => by simp [hopen (Or.inl h.1)] at h
  have hno2 : ¬ (c = ']' ∧ q = false) := fun h => by simp [hopen (Or.inr h.1)] at h
  have hno3 : ¬ (c = '\'' ∧ b = false) := fun h => by simp [hquote h.1] at h
  have hno4 : ¬ (c = ':' ∧ q = false ∧ b = false ∧ field = []) := by
    rintro ⟨hc, rfl, rfl, hfield⟩
    simp [hfield] at hcolon
    exact hcolon hc
  have hno5 : ¬ (c = ' ' ∧ q = false ∧ field ≠ []) := by
    rintro ⟨hc, rfl, hfield⟩
    simp [hfield] at hblank
    exact hblank hc
  simp only [step, if_neg hno1, if_neg hno2, if_neg hno3, if_neg hno4, if_neg hno5]

theorem loop_plain {cs : List Char} {q b : Bool} (h : ∀ c ∈ cs, plainChar c = true) :
    loop ⟨field, value, q, b, data⟩ cs = .ok ⟨field, value ++ cs, q, b, data⟩ := by
  induction cs generalizing value with
  | nil => simp [loop]
  | cons c cs ih =>
    obtain ⟨hquote, hopen, hclose, hcolon, hsep⟩ := plainChar_iff.mp (h c List.mem_cons_self)
    have hblank : c ≠ ' ' := fun hc => by simp [hc, isSeparator] at hsep
    have hstep : step ⟨field, value, q, b, data⟩ c = .ok ⟨field, value ++ [c], q, b, data⟩ := by
      refine step_collect field value data ?_ ?_ ?_ ?_
      · intro hc
        rcases hc with hc | hc
        · exact absurd hc hopen
        · exact absurd hc hclose
      · exact fun hc => absurd hc hquote
      · exact fun hc => absurd hc hcolon
      · exact fun hc => absurd hc hblank
    rw [loop_cons _ hstep, ih _ fun x hx => h x (List.mem_cons_of_mem _ hx), List.append_assoc]
    rfl

/-- What is left of a text when its quotes are left out. -/
def unquote (cs : List Char) : List Char := cs.filter (· ≠ '\'')

theorem unquote_append (cs ds : List Char) : unquote (cs ++ ds) = unquote cs ++ unquote ds :=
  List.filter_append ..

theorem unquote_double (cs : List Char) : unquote (double '\'' cs) = unquote cs := by
  induction cs with
  | nil => rfl
  | cons c cs ih =>
    by_cases hquote : c = '\''
    · subst hquote
      rw [double_cons_self]
      exact ih
    · have hkeep (ds : List Char) : unquote (c :: ds) = c :: unquote ds := by
        simp [unquote, hquote]
      rw [double_cons_ne hquote, hkeep, hkeep, ih]

theorem unquote_plain {cs : List Char} (h : ∀ c ∈ cs, plainChar c = true) : unquote cs = cs := by
  rw [unquote, List.filter_eq_self]
  intro c hc
  exact decide_eq_true (plainChar_iff.mp (h c hc)).1

/-- Between quotes everything but a quote is collected; two quotes leave the text and enter it. -/
theorem loop_double (cs : List Char) :
    loop ⟨field, value, true, false, data⟩ (double '\'' cs) =
      .ok ⟨field, value ++ unquote cs, true, false, data⟩ := by
  induction cs generalizing value with
  | nil => simp [double, loop, unquote]
  | cons c cs ih =>
    by_cases hquote : c = '\''
    · subst hquote
      rw [double_cons_self, loop_cons ⟨field, value, false, false, data⟩ rfl,
        loop_cons ⟨field, value, true, false, data⟩ rfl]
      exact ih value
    · have hstep : step ⟨field, value, true, false, data⟩ c =
          .ok ⟨field, value ++ [c], true, false, data⟩ :=
        step_collect field value data (fun _ => rfl) (fun hc => absurd hc hquote)
          (fun _ => Or.inl rfl) (fun _ => Or.inl rfl)
      have hkeep : unquote (c :: cs) = c :: unquote cs := by simp [unquote, hquote]
      rw [double_cons_ne hquote, loop_cons _ hstep, ih, hkeep, List.append_assoc]
      rfl

theorem loop_quoted (cs : List Char) :
    loop ⟨field, value, false, false, data⟩ (quoted '\'' cs) =
      .ok ⟨field, value ++ unquote cs, false, false, data⟩ := by
  rw [quoted, loop_cons ⟨field, value, true, false, data⟩ rfl, loop_append, loop_double]
  rfl

/-! ## Items -/

/-- A literal leaves itself without its quotes. -/
theorem loop_literal (datum : Datum) :
    loop ⟨field, value, false, false, data⟩ datum.literal =
      .ok ⟨field, value ++ unquote datum.literal, false, false, data⟩ := by
  have hplain {cs : List Char} (h : ∀ c ∈ cs, plainChar c = true) :
      loop ⟨field, value, false, false, data⟩ cs =
        .ok ⟨field, value ++ unquote cs, false, false, data⟩ := by
    rw [loop_plain field value data h, unquote_plain h]
  have hquoted (s : List Char) : unquote (quoted '\'' s) = unquote s := by
    rw [quoted, ← List.singleton_append, unquote_append, unquote_append, unquote_double]
    simp [unquote]
  cases datum with
  | null => exact hplain (List.all_eq_true.mp rfl)
  | number n => exact hplain fun c hc => number_plain (n.2.2 c hc)
  | boolean b =>
    cases b with
    | true => exact hplain (List.all_eq_true.mp rfl)
    | false => exact hplain (List.all_eq_true.mp rfl)
  | bits bs =>
    have hB : ∀ c ∈ ['B'], plainChar c = true := List.all_eq_true.mp rfl
    rw [bits_literal, ← List.singleton_append, loop_append, loop_plain field value data hB,
      unquote_append, hquoted, unquote_plain hB, ← List.append_assoc]
    exact loop_quoted field (value ++ ['B']) data (bitsText bs)
  | text s =>
    rw [text_literal, hquoted]
    exact loop_quoted field value data s.toList
  | other s =>
    rw [other_literal, hquoted]
    exact loop_quoted field value data s.toList
  | unchangedToast => exact hplain (List.all_eq_true.mp rfl)

/-- The name of a type between its brackets: the brackets are left out. -/
theorem loop_type {typeName : String} (h : PlainType typeName) :
    ∃ collected, '[' ∉ collected ∧
      loop ⟨[], value, false, false, data⟩ ('[' :: (typeName.toList ++ [']'])) =
        .ok ⟨[], value ++ collected, false, false, data⟩ := by
  obtain ⟨base, hbase, htype⟩ := h
  have hcollect : loop ⟨[], value, false, true, data⟩ base =
      .ok ⟨[], value ++ base, false, true, data⟩ := by
    clear htype
    induction base generalizing value with
    | nil => simp [loop]
    | cons c cs ih =>
      obtain ⟨hquote, hopen, hclose, -⟩ := typeChar_iff.mp (hbase c List.mem_cons_self)
      have hstep : step ⟨[], value, false, true, data⟩ c =
          .ok ⟨[], value ++ [c], false, true, data⟩ := by
        refine step_collect [] value data ?_ ?_ ?_ ?_
        · intro hc
          rcases hc with hc | hc
          · exact absurd hc hopen
          · exact absurd hc hclose
        · exact fun hc => absurd hc hquote
        · exact fun _ => Or.inr (Or.inl rfl)
        · exact fun _ => Or.inr rfl
      rw [loop_cons _ hstep, ih _ fun x hx => hbase x (List.mem_cons_of_mem _ hx),
        List.append_assoc]
      rfl
  have hbracket : '[' ∉ base := fun hmem => (typeChar_iff.mp (hbase _ hmem)).2.1 rfl
  refine ⟨base, hbracket, ?_⟩
  rcases htype with htype | htype
  · rw [htype, loop_cons ⟨[], value, false, true, data⟩ rfl, loop_append, hcollect]
    rfl
  · rw [htype, loop_cons ⟨[], value, false, true, data⟩ rfl, loop_append, loop_append,
      hcollect]
    rfl

/-- What follows a value without a bracket in it does not change the field. -/
theorem fieldName_append {ds : List Char} (h : '[' ∉ ds) :
    fieldName (value ++ ds) = fieldName value := by
  cases hsplit : Chars.splitOnce '[' value with
  | none =>
    have hvalue : '[' ∉ value := Chars.splitOnce_eq_none_iff.mp hsplit
    have hnone : Chars.splitOnce '[' (value ++ ds) = none :=
      Chars.splitOnce_eq_none_iff.mpr (by simp [hvalue, h])
    rw [fieldName, fieldName, hsplit, hnone]
  | some parts =>
    obtain ⟨rfl, hbefore⟩ := Chars.splitOnce_eq_some hsplit
    rw [fieldName, fieldName, List.append_assoc, List.cons_append,
      Chars.splitOnce_append hbefore, Chars.splitOnce_append hbefore]

/-- The colon after a name: the value that was collected before may hold a field. -/
theorem loop_colon {collected : List Char} (h : '[' ∉ collected) :
    loop ⟨[], value ++ collected, false, false, data⟩ [':'] =
      .ok ⟨fieldName value, [], false, false, data⟩ := by
  rw [loop_cons ⟨fieldName (value ++ collected), [], false, false, data⟩ rfl,
    fieldName_append value h]
  rfl

section

variable {keyword : String → Bool}

/-- What an item leaves behind: a marker leaves nothing. -/
def contentOf : Item → List Char
  | .column c => unquote c.datum.literal
  | _ => []

/-- An item with a colon, when no field is being collected. -/
theorem loop_item {i : Item} (hplain : PlainItem i) (hcolon : i ≠ .noTuple) :
    loop ⟨[], value, false, false, data⟩ (i.text keyword) =
      .ok ⟨fieldName value, contentOf i, false, false, data⟩ := by
  have hmarker (name : List Char) (hname : ∀ c ∈ name, plainChar c = true) :
      loop ⟨[], value, false, false, data⟩ (name ++ [':']) =
        .ok ⟨fieldName value, [], false, false, data⟩ := by
    have hbracket : '[' ∉ name := fun hmem => (plainChar_iff.mp (hname _ hmem)).2.1 rfl
    rw [loop_append, loop_plain [] value data hname]
    exact loop_colon value data hbracket
  cases i with
  | column c =>
    obtain ⟨hname, htype⟩ := hplain
    have hnameChars := @PlainName.quoteIdentifier keyword _ hname
    obtain ⟨collected, hcollected, hloop⟩ :=
      loop_type (value ++ quoteIdentifier keyword c.name) data htype
    have hbracket : '[' ∉ quoteIdentifier keyword c.name ++ collected := by
      intro hmem
      rcases List.mem_append.mp hmem with hmem | hmem
      · exact (plainChar_iff.mp (hnameChars _ hmem)).2.1 rfl
      · exact hcollected hmem
    have hcolon := loop_colon value data hbracket
    have hliteral := loop_literal (fieldName value) [] data c.datum
    rw [text_column, ← List.singleton_append (l := c.datum.literal), loop_append,
      loop_plain [] value data hnameChars]
    show loop _ _ = _
    rw [loop_append, hloop]
    show loop _ _ = _
    rw [List.append_assoc, loop_append, hcolon]
    exact hliteral
  | oldKey => exact hmarker "old-key".toList (List.all_eq_true.mp rfl)
  | newTuple => exact hmarker "new-tuple".toList (List.all_eq_true.mp rfl)
  | noTuple => exact absurd rfl hcolon

/-- The entries that the values left behind make: while a field is being collected the next value is
its own, otherwise a value with a bracket in it holds the field of the value after it. -/
def pairsOf : List Char → List Char → List (List Char) → Fields
  | field, value, [] =>
    if field ≠ [] ∧ value ≠ [] then [(String.ofList field, unquotedValue value)] else []
  | field, value, content :: contents =>
    if field = [] then pairsOf (fieldName value) content contents
    else (String.ofList field, unquotedValue value) :: pairsOf [] content contents

theorem fieldValue_unquoted {value : List Char} (h : '\'' ∉ value) :
    fieldValue value = .ok (unquotedValue value) := by
  rw [fieldValue, if_neg]
  intro hquote
  exact h (List.mem_of_mem_head? hquote.1)

theorem contentOf_no_quote (i : Item) : '\'' ∉ contentOf i := by
  cases i with
  | column c =>
    intro hmem
    have hkeep := (List.mem_filter.mp hmem).2
    simp at hkeep
  | oldKey => exact List.not_mem_nil
  | newTuple => exact List.not_mem_nil
  | noTuple => exact List.not_mem_nil

/-- The loop over items makes these entries, and it does not panic. -/
theorem loop_items {items : List Item} (h : ∀ i ∈ items, PlainItem i ∧ i ≠ .noTuple)
    {field value : List Char} (hvalue : '\'' ∉ value) (data : Fields) :
    (loop ⟨field, value, false, false, data⟩ (itemsText keyword items)).bind finish =
      .ok (data.insertAll (pairsOf field value (items.map contentOf))) := by
  induction items generalizing field value data with
  | nil =>
    rw [List.map_nil, pairsOf]
    show finish _ = _
    rw [finish]
    split
    · rw [fieldValue_unquoted hvalue]
      rfl
    · rfl
  | cons i is ih =>
    obtain ⟨hplain, hcolon⟩ := h i List.mem_cons_self
    have hitems := fun field data => @ih (fun x hx => h x (List.mem_cons_of_mem _ hx)) field _
      (contentOf_no_quote i) data
    have htext : itemsText keyword (i :: is) = ' ' :: (i.text keyword ++ itemsText keyword is) := by
      simp [itemsText]
    rw [htext, List.map_cons, pairsOf]
    split
    · next hfield =>
      subst hfield
      have hblank : '[' ∉ [' '] := by decide
      rw [loop_cons ⟨[], value ++ [' '], false, false, data⟩ rfl, loop_append,
        loop_item (value ++ [' ']) data hplain hcolon, fieldName_append value hblank]
      exact hitems (fieldName value) data
    · next hfield =>
      have hstep : step ⟨field, value, false, false, data⟩ ' ' =
          .ok ⟨[], [], false, false, data.insert (String.ofList field) (unquotedValue value)⟩ := by
        simp [step, hfield, fieldValue_unquoted hvalue, Except.map]
      rw [loop_cons _ hstep, loop_append, loop_item [] _ hplain hcolon]
      exact hitems [] _

/-- Two values make at most one entry. -/
theorem length_pairsOf (field value : List Char) (contents : List (List Char)) :
    2 * (pairsOf field value contents).length ≤
      contents.length + (if field = [] then 1 else 2) := by
  induction contents generalizing field value with
  | nil =>
    rw [pairsOf]
    split
    · next h =>
      rw [if_neg h.1]
      exact Nat.le_refl 2
    · exact Nat.zero_le _
  | cons content contents ih =>
    rw [pairsOf]
    split
    · have hle := ih (fieldName value) content
      have hone : (if fieldName value = [] then 1 else 2) ≤ 2 := by split <;> omega
      simp only [List.length_cons]
      omega
    · have hle := ih [] content
      simp only [List.length_cons, if_pos] at hle ⊢
      omega

/-- The first value has no field before it. -/
theorem length_pairsOf_start (contents : List (List Char)) :
    2 * (pairsOf [] [] contents).length ≤ contents.length := by
  cases contents with
  | nil => exact Nat.zero_le 0
  | cons content contents => exact length_pairsOf [] content contents

/-- What is read from a value without quotes has none. -/
theorem unquotedValue_no_quote {value : List Char} (h : '\'' ∉ value) {s : String}
    (hs : unquotedValue value = .string s) : '\'' ∉ s.toList := by
  rw [unquotedValue] at hs
  split at hs
  · cases hs
  · split at hs
    · cases hs
    · split at hs
      · cases hs
      · cases hs
      · split at hs
        · cases hs
        · cases hs
          rwa [String.toList_ofList]

theorem pairsOf_no_quote {field value : List Char} {contents : List (List Char)}
    (hvalue : '\'' ∉ value) (hcontents : ∀ content ∈ contents, '\'' ∉ content)
    {key s : String} (h : (key, .string s) ∈ pairsOf field value contents) : '\'' ∉ s.toList := by
  induction contents generalizing field value with
  | nil =>
    rw [pairsOf] at h
    split at h
    · have heq := List.mem_singleton.mp h
      exact unquotedValue_no_quote hvalue (Prod.mk.inj heq).2.symm
    · cases h
  | cons content contents ih =>
    have hcontent := hcontents content List.mem_cons_self
    have hrest := fun x hx => hcontents x (List.mem_cons_of_mem content hx)
    rw [pairsOf] at h
    split at h
    · exact ih hcontent hrest h
    · rcases List.mem_cons.mp h with heq | h
      · exact unquotedValue_no_quote hvalue (Prod.mk.inj heq).2.symm
      · exact ih hcontent hrest h

/-! ## Lines -/

/-- The loop over the items of a line, from its start -/
theorem loop_line {items : List Item} (h : ∀ i ∈ items, PlainItem i ∧ i ≠ .noTuple) :
    (loop ⟨[], [], false, false, []⟩ (itemsText keyword items)).bind finish =
      .ok (Fields.insertAll [] (pairsOf [] [] (items.map contentOf))) :=
  loop_items h List.not_mem_nil []

/-- What is left of a line after its two first colons: the names are taken apart at the dots. -/
theorem parse_line {schema table : String} (hschema : ':' ∉ quoteIdentifier keyword schema)
    (htable : ':' ∉ quoteIdentifier keyword table) (operation : Operation) {items : List Item}
    {data : Fields}
    (hloop : (loop ⟨[], [], false, false, []⟩ (itemsText keyword items)).bind finish = .ok data) :
    parseLogicalDecodingMessage
        (String.ofList (line keyword schema table operation items)) =
      match
        (quoteIdentifier keyword schema ++ '.' :: quoteIdentifier keyword table).splitOn '.' with
      | [schema, table] => .ok (some (.cdc ⟨operation.eventType, String.ofList table,
          String.ofList schema, data, none⟩))
      | _ => .ok none := by
  have hheader : ':' ∉ "table ".toList ++
      (quoteIdentifier keyword schema ++ '.' :: quoteIdentifier keyword table) := by
    have htable' : ':' ∉ "table ".toList := by decide
    simp [hschema, htable]
  have hop : ':' ∉ ' ' :: operation.name := by cases operation <;> decide
  have hline : line keyword schema table operation items =
      ("table ".toList ++
        (quoteIdentifier keyword schema ++ '.' :: quoteIdentifier keyword table)) ++
        ':' :: ((' ' :: operation.name) ++ ':' :: itemsText keyword items) := by
    have hunfold : line keyword schema table operation items = "table ".toList ++
        (quoteIdentifier keyword schema ++ '.' :: (quoteIdentifier keyword table ++
          ':' :: ' ' :: (operation.name ++ ':' :: itemsText keyword items))) := rfl
    simp [hunfold]
  -- the items are split at their colons too, and joined again by the parser
  obtain ⟨part, parts, hparts⟩ :=
    List.exists_cons_of_ne_nil (List.splitOn_ne_nil ':' (itemsText keyword items))
  have hsplit : (line keyword schema table operation items).splitOn ':' =
      ("table ".toList ++
        (quoteIdentifier keyword schema ++ '.' :: quoteIdentifier keyword table)) ::
        (' ' :: operation.name) :: part :: parts := by
    rw [hline, List.splitOn_append_cons_self_of_not_mem hheader,
      List.splitOn_append_cons_self_of_not_mem hop, hparts]
  have hjoin : [':'].intercalate (part :: parts) = itemsText keyword items := by
    rw [← hparts, List.intercalate_splitOn]
  have hsolid : Solid ("table ".toList ++
      (quoteIdentifier keyword schema ++ '.' :: quoteIdentifier keyword table)) := by
    have ht : Solid ['t'] := solid_of_any (by decide) rfl
    simpa using ht.append (@solid_quoteIdentifier keyword table)
      ("able ".toList ++ (quoteIdentifier keyword schema ++ ['.']))
  have hpre : "table ".toList.isPrefixOf ("table ".toList ++
      (quoteIdentifier keyword schema ++ '.' :: quoteIdentifier keyword table)) = true := by
    rw [List.isPrefixOf_iff_prefix]
    exact List.prefix_append _ _
  have hdrop : ("table ".toList ++ (quoteIdentifier keyword schema ++
      '.' :: quoteIdentifier keyword table)).drop 6 =
        quoteIdentifier keyword schema ++ '.' :: quoteIdentifier keyword table := rfl
  have hspace : Text.isWhitespace ' ' = true := rfl
  simp only [parseLogicalDecodingMessage, String.toList_ofList, hsplit, hsolid.trim, hpre,
    not_true, if_false, hdrop, Chars.trim_cons hspace, (solid_operation operation).trim,
    operationType_name, hjoin, hloop]
  rfl

/-- Without dots in the names both are read as they were printed. -/
theorem split_names {schema table : List Char} (hschema : '.' ∉ schema) (htable : '.' ∉ table) :
    (schema ++ '.' :: table).splitOn '.' = [schema, table] := by
  rw [List.splitOn_append_cons_self_of_not_mem hschema, List.splitOn_eq_singleton htable]

/-- With a dot in a name there are more than two parts. -/
theorem split_names_dot {schema table a b : List Char} (h : '.' ∈ schema ∨ '.' ∈ table) :
    (schema ++ '.' :: table).splitOn '.' ≠ [a, b] := by
  have hlength {cs : List Char} (hmem : '.' ∈ cs) : 2 ≤ (cs.splitOn '.').length := by
    obtain ⟨before, after, rfl⟩ := List.append_of_mem hmem
    have hbefore := List.length_pos_of_ne_nil (List.splitOn_ne_nil '.' before)
    have hafter := List.length_pos_of_ne_nil (List.splitOn_ne_nil '.' after)
    rw [List.splitOn_append_cons_self, List.length_append]
    omega
  have hschema := List.length_pos_of_ne_nil (List.splitOn_ne_nil '.' schema)
  have htable := List.length_pos_of_ne_nil (List.splitOn_ne_nil '.' table)
  intro heq
  have hsum := congrArg List.length heq
  rw [List.splitOn_append_cons_self, List.length_append] at hsum
  simp only [List.length_cons, List.length_nil] at hsum
  rcases h with h | h
  · have hlonger := hlength h
    omega
  · have hlonger := hlength h
    omega

end

end WalConsumer

end MeiliBridge
