import MeiliBridge.Base.Bytes
import MeiliBridge.Base.Value
import MeiliBridge.Models.Error
import MeiliBridge.Pipeline.KeySearch

/-!
# Routing without parsing

`route_event` takes the table of an event from its bytes. `route_event_iff` says for which events
that is the table of the parsed object.
-/

set_option autoImplicit false

namespace MeiliBridge

structure EventView where
  table : String
  rawData : List UInt8

/-- `serde_json::from_slice` -/
abbrev FromSlice := List UInt8 → Except String Value

def EventView.parseFull (fromSlice : FromSlice) (view : EventView) : Result Value :=
  (fromSlice view.rawData).mapError fun e => .validation s!"Failed to parse event: {e}"

namespace ZeroCopyEventRouter

open JsonText KeySearch

/-- The bytes of `table` -/
def tableName : List UInt8 := [116, 97, 98, 108, 101]

def routeEvent (eventData : List UInt8) : Result EventView :=
  if (eventData.dropWhile isAsciiWhitespace).head? ≠ some 123 then
    .error (.validation "Invalid JSON object")
  else
    match findJsonStringValue eventData (quoted tableName) with
    | some range =>
      match Text.fromUtf8 (slice eventData range) with
      | .ok table => .ok ⟨table, eventData⟩
      | .error e => .error (.validation s!"Invalid UTF-8: {e}")
    | none => .error (.validation "Missing table field")

/-! ## What a JSON text stands for -/

/-- What the words and the strings of a text stand for -/
structure Decoder where
  word : List UInt8 → Value
  unescape : String → String

def Entry : Container → Type
  | .array => Value
  | .object => String × Value

/-- A later member replaces one with the same key. -/
def build : (c : Container) → List (Entry c) → Value
  | .array, items => .array items
  | .object, members => .object (Fields.insertAll [] members)

def Den : Kind → Type
  | .value => Value
  | .entry c => Entry c
  | .entries c => List (Entry c)

def den (d : Decoder) : {k : Kind} → Syn k → Den k
  | _, .word w => d.word (w.first :: w.rest)
  | _, .string s => Value.string (d.unescape s.text)
  | _, .empty c _ => build c []
  | _, .container (c := c) entries => build c (den d entries)
  | _, .item v => (den d v : Value)
  | _, .member key _ _ v => ((d.unescape key.text, (den d v : Value)) : String × Value)
  | _, .last _ e _ => [den d e]
  | _, .cons _ e _ rest => den d e :: den d rest

/-- The text of an object; an empty one has only blanks inside. -/
structure Document where
  before : Blanks
  inside : Blanks ⊕ Syn (.entries .object)
  after : Blanks

namespace Document

def object (doc : Document) : Syn .value :=
  match doc.inside with
  | .inl ws => .empty .object ws
  | .inr members => .container members

def bytes (doc : Document) : List UInt8 := doc.before.1 ++ (doc.object.bytes ++ doc.after.1)

/-- The members in the order of the text, with the repeated ones -/
def members (d : Decoder) (doc : Document) : List (String × Value) :=
  match doc.inside with
  | .inl _ => []
  | .inr members => den d members

def fields (d : Decoder) (doc : Document) : Fields := Fields.insertAll [] (doc.members d)

theorem den_object (d : Decoder) (doc : Document) :
    den d doc.object = Value.object (doc.fields d) := by
  obtain ⟨before, inside, after⟩ := doc
  cases inside <;> rfl

/-- As it is written: the string of the first member in the text, however deep, that has a string
and whose key is `table` or ends in an escaped quote and `table` -/
def firstTable (doc : Document) : Option String :=
  (doc.object.stringMembers.find? fun m => EndsIn tableName m.1).map fun m => m.2.text

/-- As it is read: the string of the last member of the object with the key `table`, if that is a
string -/
def lastTable (d : Decoder) (doc : Document) : Option String :=
  match (doc.members d).reverse.lookup "table" with
  | some (.string s) => some s
  | _ => none

end Document

/-- The router gives a table if and only if the parsed event has it. -/
def Agrees (fromSlice : FromSlice) (eventData : List UInt8) : Prop :=
  ∃ fields, fromSlice eventData = .ok (.object fields) ∧
    ∀ table, (∃ view, routeEvent eventData = .ok view ∧ view.table = table ∧
        view.parseFull fromSlice = .ok (.object fields)) ↔
      Fields.get fields "table" = some (.string table)

/-! ## The two readings of an event -/

theorem get_insertAll (entries : Fields) (key : String) : ∀ data : Fields,
    Fields.get (Fields.insertAll data entries) key =
      (entries.reverse.lookup key).or (Fields.get data key) := by
  induction entries with
  | nil =>
    intro data
    rfl
  | cons entry entries ih =>
    intro data
    have hinsert : Fields.insertAll data (entry :: entries) =
        Fields.insertAll (Fields.insert entry.1 entry.2 data) entries := rfl
    rw [hinsert, ih, Fields.get_insert, List.reverse_cons, List.lookup_append, Option.or_assoc]
    congr 1
    obtain ⟨k, v⟩ := entry
    by_cases hkey : key = k
    · simp [hkey]
    · simp [List.lookup_cons, beq_false_of_ne hkey, hkey]

theorem get_fields (d : Decoder) (doc : Document) (table : String) :
    Fields.get (doc.fields d) "table" = some (.string table) ↔ doc.lastTable d = some table := by
  rw [Document.fields, get_insertAll, Document.lastTable]
  cases (doc.members d).reverse.lookup "table" with
  | none => simp [Fields.get]
  | some v => cases v <;> simp

theorem object_bytes (doc : Document) : ∃ tail, doc.object.bytes = 123 :: tail := by
  obtain ⟨before, inside, after⟩ := doc
  cases inside
  · exact ⟨_, rfl⟩
  · exact ⟨_, rfl⟩

theorem opens (doc : Document) : (doc.bytes.dropWhile isAsciiWhitespace).head? = some 123 := by
  obtain ⟨tail, htail⟩ := object_bytes doc
  have hblank : ∀ b ∈ doc.before.1, isAsciiWhitespace b = true :=
    fun b hb => blank_isAsciiWhitespace (doc.before.2 b hb)
  rw [Document.bytes, List.dropWhile_append_of_pos hblank, htail]
  rfl

theorem found_document (doc : Document) : found (quoted tableName) doc.bytes =
    firstNamed tableName doc.object.stringMembers := by
  have hname : ∀ b ∈ tableName, isWord b = true := by simp [tableName, isWord]
  have hne : tableName ≠ [] := List.cons_ne_nil _ _
  have hends : AfterValue doc.after.1 := by simpa using AfterValue.nil.blanks doc.after
  have hafter : found (quoted tableName) doc.after.1 = none := by
    have h := @found_blanks tableName doc.after []
    rw [List.append_nil] at h
    rw [h, found]
  rw [Document.bytes, found_blanks, found_bytes hname hne doc.object _ hends, hafter,
    Option.or_none]

/-- What the router gives for a JSON text -/
theorem routeEvent_document (doc : Document) : routeEvent doc.bytes =
    doc.firstTable.elim (.error (.validation "Missing table field"))
      fun table => .ok ⟨table, doc.bytes⟩ := by
  have hslice := findFrom_slice doc.bytes (quoted tableName) 0
  rw [List.drop_zero, found_document] at hslice
  rw [routeEvent, if_neg (not_not_intro (opens doc)), findJsonStringValue, Document.firstTable]
  cases hfind : doc.object.stringMembers.find? fun m => EndsIn tableName m.1 with
  | none =>
    rw [firstNamed, hfind, Option.map_none, Option.map_eq_none_iff] at hslice
    rw [hslice]
    rfl
  | some m =>
    rw [firstNamed, hfind] at hslice
    obtain ⟨range, hrange, htext⟩ := Option.map_eq_some_iff.mp hslice
    have hvalid : Text.fromUtf8 (slice doc.bytes range) = .ok m.2.text := by
      rw [htext]
      show Text.fromUtf8 (itemsBytes m.2.items) = .ok m.2.text
      rw [← m.2.valid]
      exact Text.fromUtf8_utf8 m.2.text
    simp [hrange, hvalid]

/-- For every JSON object: the router agrees with the parser if and only if the first table that is
written is the last that is read. -/
theorem route_event_iff (d : Decoder) (fromSlice : FromSlice) (doc : Document)
    (hparse : fromSlice doc.bytes = .ok (den d doc.object)) :
    Agrees fromSlice doc.bytes ↔ doc.firstTable = doc.lastTable d := by
  rw [Document.den_object] at hparse
  have hroute : ∀ table, (∃ view, routeEvent doc.bytes = .ok view ∧ view.table = table ∧
      view.parseFull fromSlice = .ok (.object (doc.fields d))) ↔ doc.firstTable = some table := by
    intro table
    rw [routeEvent_document]
    cases hfirst : doc.firstTable with
    | none => simp
    | some first => simp [EventView.parseFull, hparse, Except.mapError]
  constructor
  · intro h
    obtain ⟨fields, hfields, hagrees⟩ := h
    obtain rfl : doc.fields d = fields := by simpa [hparse] using hfields
    apply Option.ext
    intro table
    rw [← hroute, hagrees, get_fields]
  · intro h
    refine ⟨doc.fields d, hparse, fun table => ?_⟩
    rw [hroute, get_fields, h]

/-- For texts without words and escapes -/
def plainDecoder : Decoder := ⟨fun _ => .null, id⟩

def tableKey : Literal := .plain "table" rfl

def oneBlank : Blanks := ⟨[32], by simp [isBlank]⟩

def flatEvent : Document where
  before := noBlanks
  inside := .inr (.cons noBlanks
    (.member (.plain "id" rfl) noBlanks oneBlank (.string (.plain "7a" rfl))) noBlanks
    (.last oneBlank (.member tableKey noBlanks oneBlank (.string (.plain "users" rfl))) noBlanks))
  after := noBlanks

theorem route_event_iff_flatEvent :
    flatEvent.bytes = Text.utf8 "\x7b\"id\": \"7a\", \"table\": \"users\"\x7d" ∧
      Agrees (fun _ => .ok (den plainDecoder flatEvent.object)) flatEvent.bytes :=
  ⟨rfl, (route_event_iff plainDecoder _ flatEvent rfl).mpr rfl⟩

def nestedEvent : Document where
  before := noBlanks
  inside := .inr (.cons noBlanks
    (.member (.plain "meta" rfl) noBlanks noBlanks (.container (.last noBlanks
      (.member tableKey noBlanks noBlanks (.string (.plain "x" rfl))) noBlanks))) noBlanks
    (.last noBlanks (.member tableKey noBlanks noBlanks (.string (.plain "y" rfl))) noBlanks))
  after := noBlanks

/-- The table of a nested object comes first in the text. -/
theorem nested_table_routed :
    nestedEvent.bytes = Text.utf8 "\x7b\"meta\":\x7b\"table\":\"x\"\x7d,\"table\":\"y\"\x7d" ∧
      routeEvent nestedEvent.bytes = .ok ⟨"x", nestedEvent.bytes⟩ ∧
      Fields.get (nestedEvent.fields plainDecoder) "table" = some (.string "y") := by
  refine ⟨rfl, ?_, ?_⟩
  · rw [routeEvent_document]
    rfl
  · rw [get_fields]
    rfl

end ZeroCopyEventRouter

end MeiliBridge
