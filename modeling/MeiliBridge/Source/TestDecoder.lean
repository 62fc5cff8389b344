import MeiliBridge.Base.Chars
import MeiliBridge.Models.Error
import MeiliBridge.Models.Event

/-!
# The parser of test_decoding messages

`parse_test_decoding_message` of the replication consumer, and what it calls. The tokenizer keeps
blanks that stand in quotes or between brackets; brackets count in quotes as well.
-/

set_option autoImplicit false

namespace MeiliBridge

namespace TestDecoder

/-! ## The tokenizer -/

/-- The largest `u32`, where `bracket_depth` saturates -/
def maxDepth : Nat := 2 ^ 32 - 1

/-- The blanks that end a token -/
def isSeparator (c : Char) : Bool := c == ' ' || c == '\t' || c == '\n'

/-- The token that has been collected, if there is anything in it, before the ones that follow. -/
def push (current : List Char) (tokens : List (List Char)) : List (List Char) :=
  if current = [] then tokens else Chars.trim current :: tokens

/-- The loop of `tokenize_parts`: in quotes or not, the depth of brackets, the token so far. -/
def scan : Bool → Nat → List Char → List Char → List (List Char)
  | _, _, current, [] => push current []
  | true, depth, current, '\'' :: '\'' :: cs => scan true depth (current ++ ['\'', '\'']) cs
  | inQuotes, depth, current, c :: cs =>
    if c = '\'' then scan (!inQuotes) depth (current ++ [c]) cs
    else if c = '[' then scan inQuotes (min (depth + 1) maxDepth) (current ++ [c]) cs
    else if c = ']' then scan inQuotes (depth - 1) (current ++ [c]) cs
    else if isSeparator c ∧ inQuotes = false ∧ depth = 0 then
      push current (scan inQuotes depth [] cs)
    else scan inQuotes depth (current ++ [c]) cs

/-- `tokenize_parts` -/
def tokenizeParts (input : List Char) : List (List Char) :=
  (scan false 0 [] input).filter (· ≠ [])

/-! ## Fields -/

/-- `split_first_colon` -/
def splitFirstColon (part : List Char) : Option (List Char × List Char) :=
  (Chars.splitOnce ':' part).map fun r => (Chars.trim r.1, Chars.trim r.2)

/-- `extract_column_name` -/
def extractColumnName (colInfo : List Char) : List Char :=
  let trimmed := Chars.trimEndMatches ':' (Chars.trim colInfo)
  match Chars.splitOnce '[' trimmed with
  | some (name, _) => name
  | none => trimmed

/-- `sanitize_value` -/
def sanitizeValue (raw : List Char) : List Char :=
  let trimmed := Chars.trim raw
  if trimmed.head? = some '\'' ∧ trimmed.getLast? = some '\'' ∧ 2 ≤ trimmed.length then
    Chars.undouble trimmed.tail.dropLast
  else trimmed

/-- `parse_value` -/
def parseValue (value : List Char) : Value :=
  let value := Chars.trim value
  if value = [] then .null
  else
    match Chars.parseI64 value with
    | some n => .number (.ofI64 n)
    | none =>
      match F64.parse (String.ofList value) with
      | some (.finite x) => .number (.float x)
      | _ =>
        if Chars.eqIgnoreAsciiCase value "true".toList then .bool true
        else if Chars.eqIgnoreAsciiCase value "false".toList then .bool false
        else if Chars.eqIgnoreAsciiCase value "null".toList then .null
        else .string (String.ofList value)

/-- A part with a colon: the name of its column, and its sanitized value. -/
def columnOf (part : List Char) : Option (String × List Char) :=
  (splitFirstColon part).map fun r => (String.ofList (extractColumnName r.1), sanitizeValue r.2)

/-- The value of the first column `id` -/
def primaryKeyAfter (primaryKey : Option String) (column : String) (sanitized : List Char) :
    Option String :=
  if column = "id" ∧ primaryKey = none then some (String.ofList sanitized) else primaryKey

/-- The loop of `parse_insert_data` and of `parse_delete_data` -/
def parseRowLoop : List (List Char) → Option String → Fields → Option String × Fields
  | [], primaryKey, fields => (primaryKey, fields)
  | part :: parts, primaryKey, fields =>
    match columnOf part with
    | none => parseRowLoop parts primaryKey fields
    | some (column, sanitized) =>
      parseRowLoop parts (primaryKeyAfter primaryKey column sanitized)
        (fields.insert column (parseValue sanitized))

/-- `parse_insert_data` -/
def parseInsertData (parts : List (List Char)) : Option String × Fields :=
  parseRowLoop parts none []

/-- `parse_delete_data` -/
def parseDeleteData (parts : List (List Char)) : Option String × Fields :=
  parseRowLoop parts none []

structure UpdateLoop where
  newFields : Fields
  oldFields : Fields
  primaryKey : Option String
  isNewSection : Bool

/-- The loop of `parse_update_data` -/
def parseUpdateLoop : List (List Char) → UpdateLoop → UpdateLoop
  | [], s => s
  | part :: parts, s =>
    if part = "new-key:".toList then parseUpdateLoop parts { s with isNewSection := true }
    else if part = "old-key:".toList then parseUpdateLoop parts { s with isNewSection := false }
    else
      match columnOf part with
      | none => parseUpdateLoop parts s
      | some (column, sanitized) =>
        if s.isNewSection then
          parseUpdateLoop parts { s with
            primaryKey := primaryKeyAfter s.primaryKey column sanitized
            newFields := s.newFields.insert column (parseValue sanitized) }
        else
          parseUpdateLoop parts { s with
            oldFields := s.oldFields.insert column (parseValue sanitized) }

/-- `parse_update_data` -/
def parseUpdateData (parts : List (List Char)) : Option String × Fields :=
  let s := parseUpdateLoop parts ⟨[], [], none, false⟩
  (s.primaryKey, if s.newFields ≠ [] then s.newFields else s.oldFields)

/-! ## Messages -/

/-- The schema and the table of a name with or without a dot -/
def schemaAndTable (tableFull : List Char) : List Char × List Char :=
  match Chars.rsplitOnce '.' tableFull with
  | some (schema, table) => (schema, table)
  | none => ("public".toList, tableFull)

/-- The event type of an operation's name -/
def operationType (operation : List Char) : Option EventType :=
  if operation = "INSERT".toList then some .create
  else if operation = "UPDATE".toList then some .update
  else if operation = "DELETE".toList then some .delete
  else none

/-- The data of a row by the event type -/
def parseData (eventType : EventType) (parts : List (List Char)) :
    Option (Option String × Fields) :=
  match eventType with
  | .create => some (parseInsertData parts)
  | .update => some (parseUpdateData parts)
  | .delete => some (parseDeleteData parts)
  | _ => none

/-- `parse_test_decoding_message` -/
def parseTestDecodingMessage (lsn message : String) : Result (Option Event) :=
  let cs := message.toList
  if ¬ "table ".toList.isPrefixOf cs then .ok none
  else
    match Chars.splitOnce ':' (Chars.trim (cs.drop 6)) with
    | none => .ok none
    | some (tableToken, rest) =>
      match Chars.splitOnce ':' (Chars.trim rest) with
      | none => .ok none
      | some (operation, data) =>
        let (schema, table) := schemaAndTable (Chars.trimEndMatches ':' tableToken)
        match operationType (Chars.trim operation) with
        | none => .ok none
        | some eventType =>
          match parseData eventType (tokenizeParts (Chars.trim data)) with
          | none => .ok none
          | some (_, fields) =>
            .ok (some (.cdc ⟨eventType, String.ofList (Chars.trimEndMatches ':' table),
              String.ofList schema, fields, some (.postgreSQL lsn)⟩))

end TestDecoder

end MeiliBridge
