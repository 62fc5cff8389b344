import MeiliBridge.Source.DecoderAgreement
import MeiliBridge.Source.TestDecoderRoundTrip

/-!
# Updates with an old key

test_decoding prints such an update as the columns of the old key after `old-key:` and those of the
new tuple after `new-tuple:`. The parser looks for `new-key:`, which is never printed: the columns
of both sections go into one row, and the marker of the new tuple becomes a field of it. So the row
is that of the new tuple only where the old key leaves a bracket open, which swallows the marker,
and the columns that are swallowed with it have not changed: `readsNewTuple_iff`.
-/

set_option autoImplicit false

namespace MeiliBridge

open TestDecoding TestDecoder DecoderAgreement

namespace NewTuple

/-! ## What a token takes along -/

section

variable {keyword : String → Bool}

/-- What a token at this depth takes along of the items after it: those up to the one that closes
the brackets. -/
def takenAlong (keyword : String → Bool) : Nat → List Item → List Char
  | _, [] => []
  | d, i :: is =>
    if d = 0 then []
    else ' ' :: (i.text keyword ++ takenAlong keyword (depthAfter d (i.text keyword)) is)

/-- The entries of the items that begin a token, with the items that come after all of them. -/
def readings (keyword : String → Bool) (rest : List Item) : Nat → List Item → Fields
  | _, [] => []
  | d, i :: is =>
    if d = 0 then
      entriesOf [i.text keyword ++ takenAlong keyword (depthAfter 0 (i.text keyword)) (is ++ rest)]
        ++ readings keyword rest (depthAfter 0 (i.text keyword)) is
    else readings keyword rest (depthAfter d (i.text keyword)) is

theorem takenAlong_zero (items : List Item) : takenAlong keyword 0 items = [] := by
  cases items <;> rfl

theorem solid_blank {cur : List Char} (h : Solid cur) (i : Item) :
    Solid (cur ++ ' ' :: i.text keyword) := h.append (solid_text i) [' ']

theorem entriesOf_tokensOf {cur : List Char} (h : Solid cur) (d : Nat) (items : List Item) :
    entriesOf (tokensOf keyword d cur items) =
      entriesOf [cur ++ takenAlong keyword d items] ++ readings keyword [] d items := by
  induction items generalizing d cur with
  | nil => simp [tokensOf, h.push, takenAlong, readings]
  | cons i is ih =>
    rw [tokensOf, takenAlong, readings]
    split
    · rw [h.push, List.append_nil, List.append_nil, ← List.singleton_append, entriesOf_append,
        ih (solid_text i)]
    · rw [ih (solid_blank h i)]
      simp

/-- The row of a list of items: the entries of those that begin a token. -/
theorem entriesOf_items (items : List Item) :
    entriesOf (tokensOf keyword 0 [] items) = readings keyword [] 0 items := by
  cases items with
  | nil => rfl
  | cons i is =>
    rw [tokensOf, if_pos rfl, readings, if_pos rfl, List.append_nil,
      ← entriesOf_tokensOf (solid_text i)]
    rfl

/-- Two parts of a line, one after the other. -/
theorem readings_append (rest : List Item) (d : Nat) (xs ys : List Item) :
    readings keyword rest d (xs ++ ys) =
      readings keyword (ys ++ rest) d xs ++
        readings keyword rest (depthAfter d (itemsText keyword xs)) ys := by
  induction xs generalizing d with
  | nil => rfl
  | cons x xs ih =>
    rw [List.cons_append, readings, readings, depthAfter_items]
    split
    · next hd =>
      subst hd
      rw [ih, List.append_assoc, List.append_assoc]
    · exact ih _

/-! ## Columns -/

/-- A column of a tuple: its printed name, and its literal by itself. -/
def fieldOf (keyword : String → Bool) (c : PrintedColumn) : String × Value :=
  (String.ofList (quoteIdentifier keyword c.name), parseValue (sanitizeValue c.datum.literal))

/-- What is read for a column that begins a token, before these items. -/
def valueRead (keyword : String → Bool) (c : PrintedColumn) (after : List Item) : Value :=
  parseValue (sanitizeValue (c.datum.literal ++
    takenAlong keyword (depthAfter 0 ((Item.column c).text keyword)) after))

theorem solid_takenAlong {cur : List Char} (h : Solid cur) (d : Nat) (items : List Item) :
    Solid (cur ++ takenAlong keyword d items) := by
  induction items generalizing d cur with
  | nil => simpa [takenAlong] using h
  | cons i is ih =>
    rw [takenAlong]
    split
    · simpa using h
    · have hmerged := ih (@solid_blank keyword _ h i) (depthAfter d (i.text keyword))
      simpa using hmerged

theorem entry_column {c : PrintedColumn} (h : PlainItem (.column c)) (after : List Item) :
    entriesOf [(Item.column c).text keyword ++
        takenAlong keyword (depthAfter 0 ((Item.column c).text keyword)) after] =
      [((fieldOf keyword c).1, valueRead keyword c after)] := by
  obtain ⟨tail, htail, -, hcolumn⟩ := columnOf_begun h
    (⟨solid_takenAlong (solid_text _) _ after, List.prefix_append _ _⟩ : Begun keyword _ _)
  obtain rfl := List.append_cancel_left htail
  rw [entriesOf_cons, hcolumn]
  rfl

/-- The columns that begin a token. -/
theorem mem_readings {columns : List PrintedColumn}
    (h : ∀ c ∈ columns, PlainItem (.column c)) (rest : List Item) (d : Nat) {key : String}
    {v : Value} :
    (key, v) ∈ readings keyword rest d (columns.map .column) ↔
      ∃ before c after, columns = before ++ c :: after ∧
        depthAfter d (itemsText keyword (before.map .column)) = 0 ∧
        key = (fieldOf keyword c).1 ∧ v = valueRead keyword c (after.map .column ++ rest) := by
  induction columns generalizing d with
  | nil => simp [readings]
  | cons c columns ih =>
    have hc := h c List.mem_cons_self
    have ih := ih fun x hx => h x (List.mem_cons_of_mem c hx)
    -- the columns after the first one begin where it ends
    have hrest (hmem : (key, v) ∈ readings keyword rest
        (depthAfter d ((Item.column c).text keyword)) (columns.map .column)) :
        ∃ before x after, c :: columns = before ++ x :: after ∧
          depthAfter d (itemsText keyword (before.map .column)) = 0 ∧
          key = (fieldOf keyword x).1 ∧ v = valueRead keyword x (after.map .column ++ rest) := by
      obtain ⟨before, x, after, hcolumns, hdepth, hkey, hv⟩ := (ih _).mp hmem
      refine ⟨c :: before, x, after, by rw [hcolumns, List.cons_append], ?_, hkey, hv⟩
      rw [List.map_cons, depthAfter_items]
      exact hdepth
    rw [List.map_cons, readings]
    constructor
    · intro hmem
      split at hmem
      · next hd =>
        subst hd
        rw [entry_column hc, List.singleton_append, List.mem_cons] at hmem
        rcases hmem with heq | hmem
        · cases heq
          exact ⟨[], c, columns, rfl, rfl, rfl, rfl⟩
        · exact hrest hmem
      · exact hrest hmem
    · rintro ⟨before, x, after, hcolumns, hdepth, hkey, hv⟩
      cases before with
      | nil =>
        obtain ⟨rfl, rfl⟩ := List.cons.inj hcolumns
        have hd : d = 0 := hdepth
        rw [if_pos hd, entry_column hc, hkey, hv]
        exact List.mem_cons_self
      | cons b before =>
        obtain ⟨rfl, rfl⟩ := List.cons.inj hcolumns
        rw [List.map_cons, depthAfter_items] at hdepth
        have hmem := (ih _).mpr ⟨before, x, after, rfl, hdepth, hkey, hv⟩
        split
        · next hd =>
          subst hd
          exact List.mem_append_right _ hmem
        · exact hmem

theorem keys_readings {columns : List PrintedColumn}
    (h : ∀ c ∈ columns, PlainItem (.column c)) (rest : List Item) (d : Nat) :
    ((readings keyword rest d (columns.map .column)).map Prod.fst).Sublist
      (columns.map fun c => (fieldOf keyword c).1) := by
  induction columns generalizing d with
  | nil => exact List.Sublist.refl _
  | cons c columns ih =>
    have ih := ih (fun x hx => h x (List.mem_cons_of_mem c hx))
      (depthAfter d ((Item.column c).text keyword))
    rw [List.map_cons, List.map_cons, readings]
    split
    · next hd =>
      subst hd
      rw [entry_column (h c List.mem_cons_self), List.map_append]
      exact ih.cons_cons _
    · exact ih.cons _

/-! ## A column that swallows another -/

theorem undouble_double_append (cs ds : List Char) :
    Chars.undouble (double '\'' cs ++ '\'' :: ' ' :: ds) =
      cs ++ '\'' :: Chars.undouble (' ' :: ds) := by
  induction cs with
  | nil =>
    rw [List.nil_append]
    rfl
  | cons c cs ih =>
    by_cases hquote : c = '\''
    · subst hquote
      rw [double_cons_self, List.cons_append, List.cons_append, Chars.undouble, ih]
      rfl
    · rw [double_cons_ne hquote, List.cons_append, Chars.undouble, ih]
      · rfl
      · intro _ hc _
        exact hquote hc

theorem count_dropWhile {p : Char → Bool} {c : Char} (hc : p c = false) (cs : List Char) :
    (cs.dropWhile p).count c = cs.count c := by
  induction cs with
  | nil => rfl
  | cons x cs ih =>
    rw [List.dropWhile_cons]
    split
    · next hx =>
      have hne : x ≠ c := by
        intro heq
        rw [heq, hc] at hx
        cases hx
      rw [ih, List.count_cons_of_ne hne]
    · rfl

/-- Trimming takes no quote away. -/
theorem count_trim {c : Char} (hc : Text.isWhitespace c = false) (cs : List Char) :
    (Chars.trim cs).count c = cs.count c := by
  rw [Chars.trim, List.rdropWhile, List.count_reverse, count_dropWhile hc, List.count_reverse,
    count_dropWhile hc]

theorem count_double (cs : List Char) : cs.count '\'' ≤ (double '\'' cs).count '\'' := by
  induction cs with
  | nil => exact Nat.le_refl 0
  | cons c cs ih =>
    by_cases hquote : c = '\''
    · subst hquote
      rw [double_cons_self, List.count_cons_self, List.count_cons_self, List.count_cons_self]
      omega
    · rw [double_cons_ne hquote, List.count_cons_of_ne hquote, List.count_cons_of_ne hquote]
      exact ih

/-- A quoted value with something after it has more quotes than its text. -/
theorem count_sanitize {text tail : List Char} (h : Solid (quoted '\'' text ++ ' ' :: tail)) :
    text.count '\'' < (sanitizeValue (quoted '\'' text ++ ' ' :: tail)).count '\'' := by
  have htail : tail ≠ [] := by
    intro hnil
    have hlast := h.2.2 ' ' (by rw [hnil, List.getLast?_concat]; rfl)
    cases hlast
  have hinner : (quoted '\'' text ++ ' ' :: tail).tail.dropLast =
      double '\'' text ++ '\'' :: ' ' :: tail.dropLast := by
    have hshape : (quoted '\'' text ++ ' ' :: tail).tail =
        double '\'' text ++ '\'' :: ' ' :: tail := by
      simp [quoted]
    rw [hshape, List.dropLast_append_of_ne_nil (by simp),
      List.dropLast_cons_of_ne_nil (by simp), List.dropLast_cons_of_ne_nil htail]
  simp only [sanitizeValue, h.trim, hinner]
  split
  · rw [undouble_double_append, List.count_append, List.count_cons_self]
    omega
  · have hdouble := count_double text
    simp only [quoted, List.cons_append, List.append_assoc, List.count_cons_self,
      List.count_append]
    omega

theorem parseValue_eq_string {cs : List Char} {s : String} (h : parseValue cs = .string s) :
    s.toList = Chars.trim cs := by
  simp only [parseValue] at h
  split at h
  · cases h
  · split at h
    · cases h
    · split at h
      · cases h
      · split at h
        · cases h
        · split at h
          · cases h
          · split at h
            · cases h
            · rw [← Value.string.inj h, String.toList_ofList]

/-- A column that swallows the next one is not read as its literal. -/
theorem valueRead_ne {c : PrintedColumn} (hc : PlainItem (.column c))
    (hopen : depthAfter 0 ((Item.column c).text keyword) ≠ 0) {after : List Item}
    (hafter : after ≠ []) : valueRead keyword c after ≠ (fieldOf keyword c).2 := by
  intro heq
  have hsolid := @solid_takenAlong keyword _ (solid_literal c.datum)
    (depthAfter 0 ((Item.column c).text keyword)) after
  rw [valueRead] at heq
  obtain ⟨tail, htail⟩ : ∃ tail, takenAlong keyword
      (depthAfter 0 ((Item.column c).text keyword)) after = ' ' :: tail := by
    cases after with
    | nil => exact absurd rfl hafter
    | cons i is => exact ⟨_, by rw [takenAlong, if_neg hopen]⟩
  rw [depthAfter_column hc] at hopen
  obtain ⟨text, htext⟩ := quoted_of_open hopen
  rw [fieldOf, htail, htext, sanitize_quoted] at heq
  rw [htail, htext] at hsolid
  obtain ⟨s, hs, -⟩ := parseValue_quote (mem_sanitize hsolid)
  have hcount := count_sanitize hsolid
  have hlong := parseValue_eq_string hs
  have hshort := parseValue_eq_string (heq.symm.trans hs)
  have hquote : Text.isWhitespace '\'' = false := rfl
  rw [← count_trim hquote, ← hshort, ← count_trim hquote (sanitizeValue _), ← hlong] at hcount
  exact Nat.lt_irrefl _ hcount

theorem valueRead_eq_iff {c : PrintedColumn} (hc : PlainItem (.column c)) (after : List Item) :
    valueRead keyword c after = (fieldOf keyword c).2 ↔
      depthAfter 0 ((Item.column c).text keyword) = 0 ∨ after = [] := by
  constructor
  · intro heq
    by_contra hnot
    rw [not_or] at hnot
    exact valueRead_ne hc hnot.1 hnot.2 heq
  · rintro (hclosed | rfl)
    · rw [valueRead, hclosed, takenAlong_zero, List.append_nil, fieldOf]
    · rw [valueRead, takenAlong, List.append_nil, fieldOf]

end

/-! ## Updates -/

section

variable (keyword : String → Bool)

/-- The event's fields are the columns of the new tuple, each with the value of its own literal. -/
def ReadsNewTuple (lsn : String) (l : RowLine) : Prop :=
  ∃ e, parseTestDecodingMessage lsn (l.message keyword) = .ok (some (.cdc e)) ∧
    ∀ name v, e.data.get name = some v ↔ (name, v) ∈ l.change.printed.map (fieldOf keyword)

/-- The depth of brackets at the marker of the new tuple. -/
def markerDepth (key : List PrintedColumn) : Nat :=
  depthAfter 0 (itemsText keyword (key.map .column))

/-- The depth of brackets after these columns of the new tuple. -/
def tupleDepth (key before : List PrintedColumn) : Nat :=
  depthAfter (markerDepth keyword key) (itemsText keyword (before.map .column))

/-- The column of the new tuple begins where all brackets are closed, and closes its own unless it
is the last one. -/
def ReadAlone (key before : List PrintedColumn) (c : PrintedColumn) (after : List PrintedColumn) :
    Prop :=
  tupleDepth keyword key before = 0 ∧
    (depthAfter 0 ((Item.column c).text keyword) = 0 ∨ after = [])

/-- The column of the new tuple is swallowed; its namesake in the old key is not, and what stands
from its literal to the end of its token is read as the new value. -/
def ReadInKey (l : RowLine) (key before : List PrintedColumn) (c : PrintedColumn) : Prop :=
  tupleDepth keyword key before ≠ 0 ∧ ∃ kb k ka, key = kb ++ k :: ka ∧
    depthAfter 0 (itemsText keyword (kb.map .column)) = 0 ∧ k.name = c.name ∧
    valueRead keyword k (ka.map .column ++ .newTuple :: l.change.printed.map .column) =
      (fieldOf keyword c).2

/-- The old key leaves a bracket open, so that the marker is swallowed; and each column of the new
tuple is read alone, or in the old key. -/
structure SwallowsMarker (l : RowLine) (key : List PrintedColumn) : Prop where
  marker : markerDepth keyword key ≠ 0
  columns : ∀ before c after, l.change.printed = before ++ c :: after →
    ReadAlone keyword key before c after ∨ ReadInKey keyword l key before c

end

section

variable {keyword : String → Bool} {l : RowLine} {key : List PrintedColumn}

/-- The entries of the new tuple, behind a marker at this depth. -/
def tupleReadings (keyword : String → Bool) (l : RowLine) (key : List PrintedColumn) : Fields :=
  readings keyword [] (markerDepth keyword key) (l.change.printed.map .column)

/-- The entries of the old key. -/
def keyReadings (keyword : String → Bool) (l : RowLine) (key : List PrintedColumn) : Fields :=
  readings keyword (.newTuple :: l.change.printed.map .column) 0 (key.map .column)

theorem tokenRow_eq (hkey : l.oldKey = some key) :
    tokenRow keyword l = Fields.insertAll [] (keyReadings keyword l key ++
      ((if markerDepth keyword key = 0 then [("new-tuple", .null)] else []) ++
        tupleReadings keyword l key)) := by
  have hitems : l.rowItems = key.map .column ++ .newTuple :: l.change.printed.map .column := by
    rw [RowLine.rowItems, hkey]
  have hmarker (d : Nat) : depthAfter d (Item.newTuple.text keyword) = d := rfl
  rw [tokenRow, entriesOf_items, hitems, readings_append, List.append_nil]
  congr 2
  rw [readings, hmarker, hmarker]
  show (if markerDepth keyword key = 0 then _ else _) = _
  split
  · next hd => rw [takenAlong_zero, tupleReadings, hd]; rfl
  · rfl

theorem message_row (h : Plain l) (lsn : String) :
    ∃ e, parseTestDecodingMessage lsn (l.message keyword) = .ok (some (.cdc e)) ∧
      e.data = tokenRow keyword l := by
  obtain ⟨hschema, htable⟩ := h.no_colon keyword
  exact ⟨_, TestDecoder.parse_line hschema htable lsn l.change.operation l.items (parseData_row h),
    rfl⟩

theorem readsNewTuple_row (h : Plain l) (lsn : String) :
    ReadsNewTuple keyword lsn l ↔ ∀ name v, (tokenRow keyword l).get name = some v ↔
      (name, v) ∈ l.change.printed.map (fieldOf keyword) := by
  obtain ⟨e, hparse, hdata⟩ := @message_row keyword l h lsn
  constructor
  · rintro ⟨e', hparse', hfields⟩
    rw [hparse] at hparse'
    cases hparse'
    rwa [← hdata]
  · intro hfields
    refine ⟨e, hparse, ?_⟩
    rwa [hdata]

theorem fieldOf_injective {c c' : PrintedColumn}
    (h : (fieldOf keyword c).1 = (fieldOf keyword c').1) : c.name = c'.name :=
  quoteIdentifier_injective (String.ofList_injective h)

/-- Columns with different names stand in one place each. -/
theorem place_unique {columns before before' after after' : List PrintedColumn}
    {c c' : PrintedColumn} (hnodup : (columns.map (·.name)).Nodup)
    (h : columns = before ++ c :: after) (h' : columns = before' ++ c' :: after')
    (hname : c.name = c'.name) : before = before' ∧ c = c' ∧ after = after' := by
  have hc : c = c' := by
    apply List.inj_on_of_nodup_map hnodup _ _ hname
    · simp [h]
    · simp [h']
  subst hc
  have hfirst : c ∉ before := by
    intro hmem
    rw [h, List.map_append, List.map_cons, List.nodup_append] at hnodup
    exact hnodup.2.2 _ (List.mem_map_of_mem hmem) _ List.mem_cons_self rfl
  have hlast : c ∉ after := by
    intro hmem
    rw [h, List.map_append, List.map_cons, List.nodup_append] at hnodup
    exact (List.nodup_cons.mp hnodup.2.1).1 (List.mem_map_of_mem hmem)
  obtain ⟨hbefore, -, hafter⟩ :=
    (List.append_cons_inj_of_notMem hfirst hlast).mp (h.symm.trans h')
  exact ⟨hbefore, rfl, hafter⟩

theorem mem_tupleReadings (h : Plain l) {name : String} {v : Value} :
    (name, v) ∈ tupleReadings keyword l key ↔ ∃ before c after,
      l.change.printed = before ++ c :: after ∧ tupleDepth keyword key before = 0 ∧
        name = (fieldOf keyword c).1 ∧ v = valueRead keyword c (after.map .column) := by
  rw [tupleReadings, mem_readings h.columns]
  simp only [List.append_nil]
  exact Iff.rfl

theorem tuple_names_nodup (h : Plain l) :
    ((tupleReadings keyword l key).map Prod.fst).Nodup :=
  (names_nodup l.change.printed_nodup).sublist (keys_readings h.columns _ _)

/-- A column of the new tuple that begins a token is read there, whatever stands before it. -/
theorem get_begun (h : Plain l) (hkey : l.oldKey = some key)
    {before after : List PrintedColumn} {c : PrintedColumn}
    (hprinted : l.change.printed = before ++ c :: after)
    (hdepth : tupleDepth keyword key before = 0) :
    (tokenRow keyword l).get (fieldOf keyword c).1 =
      some (valueRead keyword c (after.map .column)) := by
  rw [tokenRow_eq hkey, ← List.append_assoc, Fields.insertAll_append]
  apply Fields.get_insertAll_of_mem (tuple_names_nodup h)
  exact (mem_tupleReadings h).mpr ⟨before, c, after, hprinted, hdepth, rfl, rfl⟩

/-- A column of the new tuple that does not is read in the old key, if anywhere. -/
theorem get_swallowed (h : Plain l) (hkey : l.oldKey = some key)
    (hmarker : markerDepth keyword key ≠ 0) {before after : List PrintedColumn} {c : PrintedColumn}
    (hprinted : l.change.printed = before ++ c :: after)
    (hdepth : tupleDepth keyword key before ≠ 0) :
    (tokenRow keyword l).get (fieldOf keyword c).1 =
      (Fields.insertAll [] (keyReadings keyword l key)).get (fieldOf keyword c).1 := by
  rw [tokenRow_eq hkey, if_neg hmarker, List.nil_append, Fields.insertAll_append]
  apply Fields.get_insertAll_of_not_mem
  intro hmem
  obtain ⟨⟨name, v⟩, hmem, hname⟩ := List.mem_map.mp hmem
  obtain ⟨before', c', after', hprinted', hdepth', hname', -⟩ := (mem_tupleReadings h).mp hmem
  obtain ⟨rfl, -, -⟩ := place_unique l.change.printed_nodup hprinted hprinted'
    (fieldOf_injective (hname.symm.trans hname'))
  exact hdepth hdepth'

theorem get_key_iff (h : Plain l) (hkey : l.oldKey = some key) {name : String} {v : Value} :
    (Fields.insertAll [] (keyReadings keyword l key)).get name = some v ↔
      ∃ kb k ka, key = kb ++ k :: ka ∧ depthAfter 0 (itemsText keyword (kb.map .column)) = 0 ∧
        name = (fieldOf keyword k).1 ∧
        v = valueRead keyword k (ka.map .column ++ .newTuple :: l.change.printed.map .column) := by
  have hplain := h.key key hkey
  rw [← mem_readings hplain]
  constructor
  · intro hget
    rcases Fields.mem_of_get_insertAll hget with hmem | hnone
    · exact hmem
    · cases hnone
  · intro hmem
    apply Fields.get_insertAll_of_mem _ hmem
    have hnodup : (key.map (·.name)).Nodup := l.change.distinct.sublist (l.keyNames key hkey)
    exact (names_nodup hnodup).sublist (keys_readings hplain _ _)

/-- A marker that begins a token is read as a field of its own. -/
theorem get_marker (h : Plain l) (hkey : l.oldKey = some key)
    (hmarker : markerDepth keyword key = 0) :
    (tokenRow keyword l).get "new-tuple" = some .null := by
  have hfresh : "new-tuple" ∉ (tupleReadings keyword l key).map Prod.fst := by
    intro hmem
    apply newTuple_not_printed keyword l.change.printed
    exact (keys_readings h.columns _ _).subset hmem
  rw [tokenRow_eq hkey, if_pos hmarker, Fields.insertAll_append, Fields.insertAll_append,
    Fields.get_insertAll_of_not_mem hfresh]
  show (Fields.insert "new-tuple" .null _).get "new-tuple" = _
  rw [Fields.get_insert, if_pos rfl]

/-- Behind a swallowed marker, a column has its value where it is read alone or in the old key. -/
theorem get_column_iff (h : Plain l) (hkey : l.oldKey = some key)
    (hmarker : markerDepth keyword key ≠ 0) {before after : List PrintedColumn} {c : PrintedColumn}
    (hprinted : l.change.printed = before ++ c :: after) :
    (tokenRow keyword l).get (fieldOf keyword c).1 = some (fieldOf keyword c).2 ↔
      ReadAlone keyword key before c after ∨ ReadInKey keyword l key before c := by
  have hplain := h.columns c (by simp [hprinted])
  by_cases hdepth : tupleDepth keyword key before = 0
  · have halone : ReadAlone keyword key before c after ↔
        valueRead keyword c (after.map .column) = (fieldOf keyword c).2 := by
      rw [valueRead_eq_iff hplain, List.map_eq_nil_iff]
      exact and_iff_right hdepth
    have hnot : ¬ ReadInKey keyword l key before c := fun hin => hin.1 hdepth
    rw [get_begun h hkey hprinted hdepth, Option.some_inj, halone, or_iff_left hnot]
  · have hnot : ¬ ReadAlone keyword key before c after := fun halone => hdepth halone.1
    rw [get_swallowed h hkey hmarker hprinted hdepth, get_key_iff h hkey, or_iff_right hnot]
    constructor
    · rintro ⟨kb, k, ka, hsplit, hstart, hname, hvalue⟩
      exact ⟨hdepth, kb, k, ka, hsplit, hstart, (fieldOf_injective hname).symm, hvalue.symm⟩
    · rintro ⟨-, kb, k, ka, hsplit, hstart, hname, hvalue⟩
      refine ⟨kb, k, ka, hsplit, hstart, ?_, hvalue.symm⟩
      rw [fieldOf, fieldOf, hname]

/-- Behind a swallowed marker, each field of the row is one of a column of the new tuple. -/
theorem field_is_printed (h : Plain l) (hkey : l.oldKey = some key)
    (hmarker : markerDepth keyword key ≠ 0) {name : String} {v : Value}
    (hget : (tokenRow keyword l).get name = some v) :
    ∃ c ∈ l.change.printed, (fieldOf keyword c).1 = name := by
  rw [tokenRow_eq hkey, if_neg hmarker, List.nil_append] at hget
  rcases Fields.mem_of_get_insertAll hget with hmem | hnone
  · rcases List.mem_append.mp hmem with hmem | hmem
    · obtain ⟨kb, k, ka, hsplit, -, hname, -⟩ := (mem_readings (h.key key hkey) _ _).mp hmem
      have hk : k.name ∈ l.change.columns.map (·.name) :=
        (l.keyNames key hkey).subset (List.mem_map_of_mem (by simp [hsplit]))
      obtain ⟨c, hc, hcname⟩ := List.mem_map.mp hk
      refine ⟨c, ?_, ?_⟩
      · rwa [Change.printed, l.isUpdate (by simp [hkey]), if_neg (by simp)]
      · rw [hname, fieldOf, fieldOf, hcname]
    · obtain ⟨before, c, after, hprinted, -, hname, -⟩ := (mem_tupleReadings h).mp hmem
      exact ⟨c, by simp [hprinted], hname.symm⟩
  · cases hnone

/-- **An update with an old key is read as its new tuple exactly when** the old key leaves a bracket
open, which swallows the marker `new-tuple:`, and each column of the new tuple is read alone or in
the old key. -/
theorem readsNewTuple_iff (lsn : String) (h : Plain l) (hkey : l.oldKey = some key) :
    ReadsNewTuple keyword lsn l ↔ SwallowsMarker keyword l key := by
  rw [readsNewTuple_row h]
  constructor
  · intro hrow
    have hmarker : markerDepth keyword key ≠ 0 := by
      intro hzero
      -- the marker is a field, and no column has its name
      obtain ⟨c, hc, hname⟩ := List.mem_map.mp ((hrow _ _).mp (get_marker h hkey hzero))
      exact newTuple_not_name c.name (congrArg Prod.fst hname)
    refine ⟨hmarker, ?_⟩
    intro before c after hprinted
    have hmem : fieldOf keyword c ∈ l.change.printed.map (fieldOf keyword) :=
      List.mem_map_of_mem (by simp [hprinted])
    exact (get_column_iff h hkey hmarker hprinted).mp ((hrow _ _).mpr hmem)
  · rintro ⟨hmarker, hcolumns⟩
    have hget (c : PrintedColumn) (hc : c ∈ l.change.printed) :
        (tokenRow keyword l).get (fieldOf keyword c).1 = some (fieldOf keyword c).2 := by
      obtain ⟨before, after, hprinted⟩ := List.append_of_mem hc
      exact (get_column_iff h hkey hmarker hprinted).mpr (hcolumns before c after hprinted)
    intro name v
    constructor
    · intro hfield
      obtain ⟨c, hc, rfl⟩ := field_is_printed h hkey hmarker hfield
      rw [hget c hc] at hfield
      rw [← Option.some.inj hfield]
      exact List.mem_map_of_mem hc
    · intro hmem
      obtain ⟨c, hc, hfield⟩ := List.mem_map.mp hmem
      have hvalue := hget c hc
      rwa [hfield] at hvalue

end

/-! ### A book with a new number -/

def number (c : Char) (h : c ∈ numberChars) : NumberText :=
  ⟨[c], List.cons_ne_nil c [], List.forall_mem_singleton.mpr h⟩

/-- The row of a book, whose number goes from 1 to 2. -/
def renumbered : RowLine where
  change := ⟨"public", "books", .update, [⟨"id", "integer", .number (number '2' (by decide))⟩],
    by decide⟩
  oldKey := some [⟨"id", "integer", .number (number '1' (by decide))⟩]
  isUpdate := fun _ => rfl
  keyNames := by decide
  nonempty := by decide

theorem plain_renumbered : Plain renumbered := by
  have hinteger : PlainName "id" ∧ PlainType "integer" :=
    ⟨List.all_eq_true.mp rfl, "integer".toList, List.all_eq_true.mp rfl, Or.inl rfl⟩
  refine ⟨by decide, by decide, ?_, ?_⟩
  · intro column hcolumn
    obtain rfl := List.mem_singleton.mp hcolumn
    exact hinteger
  · intro key hkey column hcolumn
    obtain rfl := Option.some.inj hkey
    obtain rfl := List.mem_singleton.mp hcolumn
    exact hinteger

/-- Its fields are `id` and `new-tuple`. -/
theorem not_always_new_tuple : ¬ ∀ (keyword : String → Bool) (lsn : String) (l : RowLine)
    (key : List PrintedColumn), l.oldKey = some key → ReadsNewTuple keyword lsn l := by
  intro h
  have hrow := (readsNewTuple_row plain_renumbered "0/10").mp
    (h (fun _ => false) "0/10" renumbered _ rfl)
  have hmarker := (hrow "new-tuple" .null).mp rfl
  obtain ⟨c, hc, hname⟩ := List.mem_map.mp hmarker
  exact newTuple_not_name c.name (congrArg Prod.fst hname)

/-- The label of a shelf is changed from `a[` to `b`; the other column stays `]`. -/
def relabelled : RowLine where
  change := ⟨"public", "shelves", .update, [⟨"shelf", "text", .text "]"⟩,
    ⟨"label", "text", .text "b"⟩], by decide⟩
  oldKey := some [⟨"shelf", "text", .text "]"⟩, ⟨"label", "text", .text "a["⟩]
  isUpdate := fun _ => rfl
  keyNames := by decide
  nonempty := by decide

/-- The bracket of the old label is closed by the other column of the new tuple. -/
theorem readsNewTuple_relabelled : ReadsNewTuple (fun _ => false) "0/10" relabelled := by
  have htext : PlainType "text" := ⟨"text".toList, List.all_eq_true.mp rfl, Or.inl rfl⟩
  have hshelf : PlainName "shelf" := List.all_eq_true.mp rfl
  have hlabel : PlainName "label" := List.all_eq_true.mp rfl
  have hplain : Plain relabelled := by
    refine ⟨by decide, by decide, ?_, ?_⟩
    · intro column hcolumn
      have hmem : column ∈ relabelled.change.columns :=
        relabelled.change.printed_sublist.subset hcolumn
      simp only [relabelled, List.mem_cons, List.not_mem_nil, or_false] at hmem
      rcases hmem with rfl | rfl
      · exact ⟨hshelf, htext⟩
      · exact ⟨hlabel, htext⟩
    · intro key hkey column hcolumn
      obtain rfl := Option.some.inj hkey
      simp only [List.mem_cons, List.not_mem_nil, or_false] at hcolumn
      rcases hcolumn with rfl | rfl
      · exact ⟨hshelf, htext⟩
      · exact ⟨hlabel, htext⟩
  apply (readsNewTuple_iff "0/10" hplain rfl).mpr
  refine ⟨by decide, ?_⟩
  intro before c after hprinted
  have hcolumns : relabelled.change.printed =
      [⟨"shelf", "text", .text "]"⟩, ⟨"label", "text", .text "b"⟩] := rfl
  rw [hcolumns] at hprinted
  rcases before with _ | ⟨first, before⟩
  · -- the shelf is swallowed, and read in the old key
    cases hprinted
    exact .inr ⟨by decide, [], _, _, rfl, rfl, rfl, rfl⟩
  · obtain ⟨rfl, hprinted⟩ := List.cons.inj hprinted
    rcases before with _ | ⟨second, before⟩
    · cases hprinted
      exact .inl ⟨by decide, .inr rfl⟩
    · obtain ⟨-, hprinted⟩ := List.cons.inj hprinted
      simp at hprinted

end NewTuple

end MeiliBridge
