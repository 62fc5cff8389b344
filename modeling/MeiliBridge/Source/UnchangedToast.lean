import MeiliBridge.Source.NewTuple
import MeiliBridge.Source.PgOutputLayout
import MeiliBridge.Source.TupleDecoding

/-!
# Columns that an update leaves as they are

A value that is stored out of line is not sent again with an update that does not change it:
pgoutput sends the tag `u`, test_decoding prints `unchanged-toast-datum`. The tuple parser takes the
first for NULL, and the value parser takes the second for a text, so that either decoder makes a
value of such a column: `unchanged_preserved_iff`.
-/

set_option autoImplicit false

namespace MeiliBridge

open PgOutput TestDecoder TestDecoding WalConsumer

namespace UnchangedToast

/-! ## Rows of named values -/

/-- NULL or a text: nothing tells it from the value of a column that has been changed. -/
def Ordinary (v : Value) : Prop := v = .null ∨ ∃ s, v = .string s

/-- The field is absent, or is neither NULL nor a text. -/
def Preserved (data : Fields) (name : String) : Prop :=
  ∀ v, data.get name = some v → ¬ Ordinary v

section

variable {α : Type} {name : α → String} {value : α → Value} {items : List α}

/-- Among several columns of one name the last one counts. -/
theorem get_last {before rest : List α} {b : α} (hitems : items = before ++ b :: rest)
    (hlast : name b ∉ rest.map name) :
    (Fields.insertAll [] (items.map fun a => (name a, value a))).get (name b) = some (value b) := by
  rw [hitems, List.map_append, Fields.insertAll_append, List.map_cons]
  have hrest : name b ∉ (rest.map fun a => (name a, value a)).map Prod.fst := by
    rw [List.map_map]
    exact hlast
  refine (Fields.get_insertAll_of_not_mem hrest _).trans ?_
  rw [Fields.get_insert, if_pos rfl]

theorem exists_last {key : String} (h : key ∈ items.map name) :
    ∃ before b rest, items = before ++ b :: rest ∧ name b = key ∧ key ∉ rest.map name := by
  induction items with
  | nil => cases h
  | cons a items ih =>
    by_cases hrest : key ∈ items.map name
    · obtain ⟨before, b, rest, rfl, hname, hlast⟩ := ih hrest
      exact ⟨a :: before, b, rest, rfl, hname, hlast⟩
    · rw [List.map_cons, List.mem_cons] at h
      have ha : name a = key := by
        rcases h with h | h
        · exact h.symm
        · exact absurd h hrest
      exact ⟨[], a, items, rfl, ha, hrest⟩

variable (name value items) in
/-- A later column of the same name, the last one, is neither NULL nor a text. -/
def Shadowed (unchanged : α → Prop) : Prop :=
  ∀ before a after, items = before ++ a :: after → unchanged a →
    ∃ mid b rest, after = mid ++ b :: rest ∧ name b = name a ∧ name a ∉ rest.map name ∧
      ¬ Ordinary (value b)

/-- If the unchanged columns are read as ordinary values, they are preserved exactly where others
take their places. -/
theorem preserved_iff_shadowed {unchanged : α → Prop}
    (hordinary : ∀ a ∈ items, unchanged a → Ordinary (value a)) :
    (∀ a ∈ items, unchanged a →
      Preserved (Fields.insertAll [] (items.map fun a => (name a, value a))) (name a)) ↔
      Shadowed name value items unchanged := by
  constructor
  · intro h before a after hitems ha
    have hmem : a ∈ items := by simp [hitems]
    by_cases hlater : name a ∈ after.map name
    · obtain ⟨mid, b, rest, rfl, hname, hlast⟩ := exists_last hlater
      refine ⟨mid, b, rest, rfl, hname, hlast, ?_⟩
      have hget := @get_last α name value items (before ++ a :: mid) rest b
        (by simp [hitems]) (hname ▸ hlast)
      rw [hname] at hget
      exact h a hmem ha _ hget
    · exact absurd (hordinary a hmem ha) (h a hmem ha _ (get_last hitems hlater))
  · intro h a hmem ha v hv
    obtain ⟨before, after, hitems⟩ := List.append_of_mem hmem
    obtain ⟨mid, b, rest, rfl, hname, hlast, hvalue⟩ := h before a after hitems ha
    have hget := @get_last α name value items (before ++ a :: mid) rest b
      (by simp [hitems]) (hname ▸ hlast)
    rw [hname, hv] at hget
    rw [Option.some.inj hget]
    exact hvalue

/-- Where the names are different, no column takes the place of another. -/
theorem shadowed_iff_of_nodup (hnodup : (items.map name).Nodup) {unchanged : α → Prop} :
    Shadowed name value items unchanged ↔ ∀ a ∈ items, ¬ unchanged a := by
  constructor
  · intro h a hmem ha
    obtain ⟨before, after, hitems⟩ := List.append_of_mem hmem
    obtain ⟨mid, b, rest, rfl, hname, -⟩ := h before a after hitems ha
    rw [hitems, List.map_append, List.map_cons] at hnodup
    have hfresh := (List.nodup_cons.mp (List.nodup_append.mp hnodup).2.1).1
    apply hfresh
    rw [← hname]
    exact List.mem_map_of_mem (by simp)
  · intro h before a after hitems ha
    exact absurd ha (h a (by simp [hitems]))

end

/-! ## pgoutput -/

/-- The value of a column, as it is sent. -/
inductive SentDatum where
  | null
  | text (data : List UInt8)
  | unchanged
  deriving DecidableEq

def SentDatum.bytes : SentDatum → List UInt8
  | .null => [tag 'n']
  | .text data => tag 't' :: Bytes.be 4 data.length ++ data
  | .unchanged => [tag 'u']

/-- What the tuple parser makes of it. -/
def SentDatum.received : SentDatum → Option (List UInt8)
  | .text data => some data
  | .null | .unchanged => none

/-- A tuple that can be laid out. -/
structure SentTuple where
  columns : List SentDatum
  count : columns.length ≤ 65535
  lengths : ∀ data, .text data ∈ columns → data.length < 2 ^ 32

def SentTuple.received (t : SentTuple) : TupleData := ⟨t.columns.map SentDatum.received⟩

def SentTuple.bytes (t : SentTuple) : List UInt8 :=
  u16 t.columns.length ++ (t.columns.map SentDatum.bytes).flatten

/-- The bytes of an update, with or without an old tuple. -/
inductive UpdateBytes (relationId : UInt32) (new : SentTuple) : List UInt8 → Prop
  | new : UpdateBytes relationId new (tag 'U' :: (u32 relationId ++ (tag 'N' :: new.bytes)))
  | old (t : UInt8) (old : SentTuple) (ht : OldTag t) :
    UpdateBytes relationId new
      (tag 'U' :: (u32 relationId ++ (t :: (old.bytes ++ (tag 'N' :: new.bytes)))))

theorem SentDatum.layout (d : SentDatum) : DataLayout d.received d.bytes := by
  cases d with
  | null => exact .null
  | text data => exact .text data
  | unchanged => exact .unchanged

theorem SentTuple.layout (t : SentTuple) : TupleLayout t.received t.bytes := by
  have hparts : List.Forall₂ DataLayout t.received.columns (t.columns.map SentDatum.bytes) := by
    rw [SentTuple.received, List.forall₂_map_left_iff, List.forall₂_map_right_iff,
      List.forall₂_same]
    exact fun d _ => d.layout
  have hlayout := TupleLayout.mk t.received _ hparts
  rwa [SentTuple.received, List.length_map] at hlayout

theorem SentTuple.wellFormed (t : SentTuple) : TupleData.WellFormed t.received := by
  refine ⟨by simpa [SentTuple.received] using t.count, ?_⟩
  intro data hdata
  obtain ⟨d, hd, hreceived⟩ := List.mem_map.mp hdata
  cases d with
  | text data' =>
    obtain rfl := Option.some.inj hreceived
    exact t.lengths _ hd
  | null => cases hreceived
  | unchanged => cases hreceived

/-- The parser gives the new tuple, and stays as it was. -/
theorem parse_update {relationId : UInt32} {new : SentTuple} {bytes : List UInt8}
    (h : UpdateBytes relationId new bytes) (p : PgOutputParser) :
    ∃ old, p.parseMessage bytes = (.ok (some (.update ⟨relationId, old, new.received⟩)), p) := by
  cases h with
  | new =>
    have hlayout := Layout.update ⟨relationId, none, new.received⟩ new.bytes rfl new.layout
    refine ⟨none, (parses_layout hlayout ⟨?_, new.wellFormed⟩).accepts p⟩
    intro t ht
    cases ht
  | old t old ht =>
    have hlayout := Layout.updateOld ⟨relationId, some old.received, new.received⟩ t old.received
      old.bytes new.bytes ht rfl old.layout new.layout
    refine ⟨some old.received, (parses_layout hlayout ⟨?_, new.wellFormed⟩).accepts p⟩
    intro t ht
    rw [← Option.some.inj ht]
    exact old.wellFormed

section

variable (fromStr : String → Option Value)

/-- The bytes are parsed, and what comes out is processed to this event. -/
def DecodesTo (p : PgOutputParser) (bytes : List UInt8) (e : CdcEvent) : Prop :=
  ∃ m p', p.parseMessage bytes = (.ok (some m), p') ∧
    processPgoutputMessage fromStr m p' = .ok (some (.cdc e))

/-- The columns of the relation, with what is sent for them -/
def sentColumns (relation : RelationMessage) (t : SentTuple) : List (Column × SentDatum) :=
  relation.columns.zip t.columns

/-- The value of a column that is sent -/
def sentValue (c : Column × SentDatum) : Value :=
  ((columnValue fromStr c.1 c.2.received).toOption).getD .null

theorem decoded_row {p : PgOutputParser} {relation : RelationMessage} {relationId : UInt32}
    {new : SentTuple} {bytes : List UInt8} {e : CdcEvent}
    (hrelation : p.getRelation relationId = some relation)
    (hbytes : UpdateBytes relationId new bytes)
    (hdecodes : DecodesTo fromStr p bytes e) :
    e.data = Fields.insertAll []
      ((sentColumns relation new).map fun c => (c.1.name, sentValue fromStr c)) := by
  obtain ⟨old, hparse⟩ := parse_update hbytes p
  obtain ⟨m, p', hparse', hprocess⟩ := hdecodes
  rw [hparse] at hparse'
  cases hparse'
  simp only [processPgoutputMessage, rowEvent, hrelation] at hprocess
  obtain ⟨data, hdata, hevent⟩ := bind_eq_ok.mp hprocess
  cases hevent
  rw [decodeTupleData_ok hdata, SentTuple.received, List.zip_map_right, columnFields, List.map_map]
  rfl

end

/-! ## test_decoding -/

/-- The tokens of one section of an update, the old one or the new one. -/
def sectionOf (wanted : Bool) : Bool → List (List Char) → List (List Char)
  | _, [] => []
  | isNewSection, part :: parts =>
    if part = "new-key:".toList then sectionOf wanted true parts
    else if part = "old-key:".toList then sectionOf wanted false parts
    else if isNewSection = wanted then part :: sectionOf wanted isNewSection parts
    else sectionOf wanted isNewSection parts

/-- The tokens that the row of an update is made of: those of the new section, if there is a column
among them. -/
def rowParts (parts : List (List Char)) : List (List Char) :=
  if entriesOf (sectionOf true false parts) ≠ [] then sectionOf true false parts
  else sectionOf false false parts

theorem parseUpdateLoop_sections (parts : List (List Char)) (s : UpdateLoop) :
    (parseUpdateLoop parts s).oldFields =
        s.oldFields.insertAll (entriesOf (sectionOf false s.isNewSection parts)) ∧
      (parseUpdateLoop parts s).newFields =
        s.newFields.insertAll (entriesOf (sectionOf true s.isNewSection parts)) := by
  induction parts generalizing s with
  | nil => exact ⟨rfl, rfl⟩
  | cons part parts ih =>
    rw [parseUpdateLoop, sectionOf, sectionOf]
    split
    · exact ih _
    · split
      · exact ih _
      -- a marker switches the section; every other part goes to the section that is open
      · cases hsection : s.isNewSection with
        | false =>
          rw [if_pos rfl, if_neg Bool.false_ne_true, entriesOf_cons]
          cases hcolumn : columnOf part with
          | none =>
            have hrest := ih s
            rw [hsection] at hrest
            exact hrest
          | some c =>
            have hrest := ih { s with oldFields := s.oldFields.insert c.1 (parseValue c.2) }
            rw [hsection] at hrest
            exact hrest
        | true =>
          rw [if_neg (by decide), if_pos rfl, entriesOf_cons]
          cases hcolumn : columnOf part with
          | none =>
            have hrest := ih s
            rw [hsection] at hrest
            exact hrest
          | some c =>
            have hrest := ih { s with
              primaryKey := primaryKeyAfter s.primaryKey c.1 c.2
              newFields := s.newFields.insert c.1 (parseValue c.2) }
            rw [hsection] at hrest
            exact hrest

theorem insertAll_ne_nil {data entries : Fields} (h : data ≠ [] ∨ entries ≠ []) :
    data.insertAll entries ≠ [] := by
  induction entries generalizing data with
  | nil => exact h.resolve_right (not_not_intro rfl)
  | cons entry entries ih =>
    have hfirst : data.insert entry.1 entry.2 ≠ [] := by
      intro hnil
      have hget := Fields.get_insert entry.1 entry.1 entry.2 data
      rw [hnil, if_pos rfl] at hget
      cases hget
    exact ih (.inl hfirst)

/-- The row of an update, from its tokens -/
theorem parseUpdateData_rowParts (parts : List (List Char)) :
    (parseUpdateData parts).2 = Fields.insertAll [] (entriesOf (rowParts parts)) := by
  obtain ⟨hold, hnew⟩ := parseUpdateLoop_sections parts ⟨[], [], none, false⟩
  simp only [parseUpdateData, hold, hnew, rowParts]
  by_cases hnone : entriesOf (sectionOf true false parts) = []
  · rw [hnone, if_neg (by simp [Fields.insertAll]), if_neg (by simp)]
  · rw [if_pos (insertAll_ne_nil (.inr hnone)), if_pos hnone]

/-- The columns of these tokens: what stands before the colon, and after it. -/
def printedColumns (parts : List (List Char)) : List (List Char × List Char) :=
  parts.filterMap splitFirstColon

def columnName (c : List Char × List Char) : String := String.ofList (extractColumnName c.1)

def readValue (c : List Char × List Char) : Value := parseValue (sanitizeValue c.2)

theorem entriesOf_columns (parts : List (List Char)) :
    entriesOf parts = (printedColumns parts).map fun c => (columnName c, readValue c) := by
  induction parts with
  | nil => rfl
  | cons part parts ih =>
    have hcons : printedColumns (part :: parts) =
        (splitFirstColon part).toList ++ printedColumns parts := by
      rw [printedColumns, List.filterMap_cons]
      cases splitFirstColon part <;> rfl
    rw [entriesOf_cons, ih, hcons, columnOf, List.map_append]
    cases splitFirstColon part <;> rfl

/-- The tokens after the operation of a message -/
def dataTokens (message : String) : List (List Char) :=
  match Chars.splitOnce ':' (Chars.trim (message.toList.drop 6)) with
  | none => []
  | some (_, rest) =>
    match Chars.splitOnce ':' (Chars.trim rest) with
    | none => []
    | some (_, data) => tokenizeParts (Chars.trim data)

/-- The columns that the row of an update is made of -/
def rowColumns (message : String) : List (List Char × List Char) :=
  printedColumns (rowParts (dataTokens message))

theorem parsed_row {lsn message : String} {e : CdcEvent}
    (h : parseTestDecodingMessage lsn message = .ok (some (.cdc e)))
    (hupdate : e.eventType = .update) :
    e.data =
      Fields.insertAll [] ((rowColumns message).map fun c => (columnName c, readValue c)) := by
  simp only [parseTestDecodingMessage] at h
  split at h
  · cases h
  · split at h
    · cases h
    · next tableToken rest htable =>
      split at h
      · cases h
      · next operation data hop =>
        split at h
        · cases h
        · next eventType htype =>
          split at h
          · cases h
          · next primaryKey fields hdata =>
            have hevent := Event.cdc.inj (Option.some.inj (Except.ok.inj h))
            rw [← hevent] at hupdate ⊢
            obtain rfl : eventType = .update := hupdate
            have hfields := congrArg Prod.snd (Option.some.inj hdata)
            have htokens : dataTokens message = tokenizeParts (Chars.trim data) := by
              simp only [dataTokens, htable, hop]
            show fields = _
            rw [rowColumns, htokens, ← entriesOf_columns, ← parseUpdateData_rowParts]
            exact hfields.symm

/-- The marker is read as a text. -/
theorem readValue_unchanged (info : List Char) :
    readValue (info, unchangedToastDatum) = .string "unchanged-toast-datum" := by
  show parseValue (sanitizeValue unchangedToastDatum) = _
  decide

section

open DecoderAgreement NewTuple

variable {keyword : String → Bool} {l : RowLine}

/-- In a printed line, an unchanged column that begins where the brackets are closed becomes a text:
whatever else the line has. -/
theorem unchanged_text (h : Plain l) {lsn : String} {e : CdcEvent}
    (hparse : parseTestDecodingMessage lsn (l.message keyword) = .ok (some (.cdc e)))
    {before after : List PrintedColumn} {c : PrintedColumn}
    (hprinted : l.change.printed = before ++ c :: after) (hc : c.datum = .unchangedToast)
    (hdepth : tupleDepth keyword (l.oldKey.getD []) before = 0) :
    e.data.get (fieldOf keyword c).1 = some (.string "unchanged-toast-datum") := by
  obtain ⟨e', hparse', hdata⟩ := @message_row keyword l h lsn
  rw [hparse] at hparse'
  cases hparse'
  have hplain := h.columns c (by simp [hprinted])
  have hclosed : depthAfter 0 ((Item.column c).text keyword) = 0 := by
    rw [depthAfter_column hplain, hc]
    decide
  have hvalue (items : List Item) :
      valueRead keyword c items = .string "unchanged-toast-datum" := by
    rw [(valueRead_eq_iff hplain items).mpr (.inl hclosed), fieldOf, hc]
    exact readValue_unchanged []
  rw [hdata]
  cases hkey : l.oldKey with
  | some key =>
    rw [hkey] at hdepth
    rw [get_begun h hkey hprinted hdepth, hvalue]
  | none =>
    have hitems : l.rowItems = l.change.printed.map .column := by rw [RowLine.rowItems, hkey]
    rw [hkey] at hdepth
    rw [tokenRow, hitems, entriesOf_items, ← hvalue (after.map .column ++ [])]
    apply Fields.get_insertAll_of_mem
    · exact (names_nodup l.change.printed_nodup).sublist (keys_readings h.columns _ _)
    · exact (mem_readings h.columns [] 0).mpr ⟨before, c, after, hprinted, hdepth, rfl, rfl⟩

end

/-! ## Both decoders -/

/-- **An unchanged column is preserved exactly where** the row has a later column of the same name,
the last one, that is neither NULL nor a text: in what pgoutput sends as in what test_decoding
prints. -/
theorem unchanged_preserved_iff (fromStr : String → Option Value) :
    (∀ (p : PgOutputParser) (relation : RelationMessage) (relationId : UInt32) (new : SentTuple)
      (bytes : List UInt8) (e : CdcEvent), p.getRelation relationId = some relation →
      UpdateBytes relationId new bytes → DecodesTo fromStr p bytes e →
      ((∀ c ∈ sentColumns relation new, c.2 = .unchanged → Preserved e.data c.1.name) ↔
        Shadowed (fun c => c.1.name) (sentValue fromStr) (sentColumns relation new)
          fun c => c.2 = .unchanged)) ∧
    ∀ (lsn message : String) (e : CdcEvent),
      parseTestDecodingMessage lsn message = .ok (some (.cdc e)) → e.eventType = .update →
      ((∀ c ∈ rowColumns message, c.2 = unchangedToastDatum → Preserved e.data (columnName c)) ↔
        Shadowed columnName readValue (rowColumns message) fun c => c.2 = unchangedToastDatum) := by
  constructor
  · intro p relation relationId new bytes e hrelation hbytes hdecodes
    rw [decoded_row fromStr hrelation hbytes hdecodes]
    apply preserved_iff_shadowed
    rintro ⟨column, datum⟩ - rfl
    exact .inl rfl
  · intro lsn message e hparse hupdate
    rw [parsed_row hparse hupdate]
    apply preserved_iff_shadowed
    rintro ⟨info, text⟩ - rfl
    exact .inr ⟨_, readValue_unchanged info⟩

/-! ### The text of a book -/

def booksRelation : RelationMessage := ⟨7, "public", "books", 100, [⟨0, "body", 25, -1⟩]⟩

def booksParser : PgOutputParser := ⟨AList.insert 7 booksRelation ∅⟩

/-- A tuple of a book whose text is not sent. -/
def keptBody : SentTuple := ⟨[.unchanged], by decide, by simp⟩

def keptBodyBytes : List UInt8 := tag 'U' :: (u32 7 ++ (tag 'N' :: keptBody.bytes))

def keptBodyLine : String := "table public.books: UPDATE: body[text]:unchanged-toast-datum"

theorem booksParser_relation : booksParser.getRelation 7 = some booksRelation := rfl

theorem keptBody_decodes (fromStr : String → Option Value) :
    DecodesTo fromStr booksParser keptBodyBytes ⟨.update, "books", "public",
      [("body", .null)], none⟩ := by
  obtain ⟨old, hparse⟩ := parse_update (.new : UpdateBytes 7 keptBody keptBodyBytes) booksParser
  exact ⟨_, _, hparse, rfl⟩

theorem keptBodyLine_parses (lsn : String) :
    parseTestDecodingMessage lsn keptBodyLine = .ok (some (.cdc ⟨.update, "books", "public",
      [("body", .string "unchanged-toast-datum")], some (.postgreSQL lsn)⟩)) := rfl

theorem keptBodyLine_columns :
    rowColumns keptBodyLine = [("body[text]".toList, unchangedToastDatum)] := by
  decide

theorem null_not_preserved (name : String) (rest : Fields) :
    ¬ Preserved ((name, .null) :: rest) name := by
  intro h
  exact h .null (by simp [Fields.get]) (.inl rfl)

theorem text_not_preserved (name text : String) (rest : Fields) :
    ¬ Preserved ((name, .string text) :: rest) name := by
  intro h
  exact h (.string text) (by simp [Fields.get]) (.inr ⟨text, rfl⟩)

/-- Each decoder gives the book a text: NULL, and the marker. -/
theorem unchanged_not_always_preserved :
    (¬ ∀ (fromStr : String → Option Value) (p : PgOutputParser) (relation : RelationMessage)
      (relationId : UInt32) (new : SentTuple) (bytes : List UInt8) (e : CdcEvent),
      p.getRelation relationId = some relation → UpdateBytes relationId new bytes →
      DecodesTo fromStr p bytes e →
      ∀ c ∈ sentColumns relation new, c.2 = .unchanged → Preserved e.data c.1.name) ∧
    ¬ ∀ (lsn message : String) (e : CdcEvent),
      parseTestDecodingMessage lsn message = .ok (some (.cdc e)) → e.eventType = .update →
      ∀ c ∈ rowColumns message, c.2 = unchangedToastDatum → Preserved e.data (columnName c) := by
  constructor
  · intro h
    exact null_not_preserved "body" [] (h (fun _ => none) booksParser booksRelation 7 keptBody
      keptBodyBytes _ booksParser_relation .new (keptBody_decodes _) _ List.mem_cons_self rfl)
  · intro h
    have hbody := h "0/10" keptBodyLine _ (keptBodyLine_parses _) rfl
    rw [keptBodyLine_columns] at hbody
    have hpreserved := hbody _ List.mem_cons_self rfl
    have hname : columnName ("body[text]".toList, unchangedToastDatum) = "body" := by decide
    rw [hname] at hpreserved
    exact text_not_preserved "body" _ [] hpreserved

/-- No other column takes the place of the text. -/
theorem unchanged_preserved_iff_body :
    (¬ ∀ c ∈ sentColumns booksRelation keptBody, c.2 = .unchanged →
      Preserved [("body", .null)] c.1.name) ∧
    ¬ ∀ c ∈ rowColumns keptBodyLine, c.2 = unchangedToastDatum →
      Preserved [("body", .string "unchanged-toast-datum")] (columnName c) := by
  obtain ⟨hpgoutput, htest⟩ := unchanged_preserved_iff fun _ => none
  constructor
  · intro h
    have hshadowed := (hpgoutput booksParser booksRelation 7 keptBody keptBodyBytes _
      booksParser_relation .new (keptBody_decodes _)).mp h
    exact (shadowed_iff_of_nodup (by decide)).mp hshadowed _ List.mem_cons_self rfl
  · intro h
    have hshadowed := (htest "0/10" keptBodyLine _ (keptBodyLine_parses _) rfl).mp h
    rw [keptBodyLine_columns] at hshadowed
    exact (shadowed_iff_of_nodup (by decide)).mp hshadowed _ List.mem_cons_self rfl

end UnchangedToast

end MeiliBridge
