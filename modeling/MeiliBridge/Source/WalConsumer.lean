import MeiliBridge.Source.TestDecoder

/-!
# The parser of logical decoding text in the WAL consumer

`parse_logical_decoding_message`, a second parser of the test_decoding format. It keeps one field
and one value while it goes through the characters, and leaves the quotes and the brackets out of
both.
-/

set_option autoImplicit false

namespace MeiliBridge

namespace WalConsumer

/-! ## Values -/

/-- A value without quotes around it -/
def unquotedValue (value : List Char) : Value :=
  if value = "null".toList then .null
  else
    match Chars.parseI64 value with
    | some n => .number (.ofI64 n)
    | none =>
      match F64.parse (String.ofList value) with
      | some (.finite x) => .number (.float x)
      | some .nonFinite => .null
      | none =>
        if value = "true".toList ∨ value = "false".toList then .bool (value = "true".toList)
        else .string (String.ofList value)

/-- The value of a field. The slice between the quotes panics when they are one and the same. -/
def fieldValue (value : List Char) : Except Fault Value :=
  if value.head? = some '\'' ∧ value.getLast? = some '\'' then
    if value.length < 2 then .error .panic
    else .ok (.string (String.ofList value.tail.dropLast))
  else .ok (unquotedValue value)

/-! ## The loop -/

structure Loop where
  currentField : List Char
  currentValue : List Char
  inQuotes : Bool
  inBrackets : Bool
  dataMap : Fields

/-- The field at a colon: what stands before a bracket in the value. -/
def fieldName (value : List Char) : List Char :=
  match Chars.splitOnce '[' value with
  | some (name, _) => Chars.trim name
  | none => []

/-- One character -/
def step (s : Loop) (ch : Char) : Except Fault Loop :=
  if ch = '[' ∧ s.inQuotes = false then .ok { s with inBrackets := true }
  else if ch = ']' ∧ s.inQuotes = false then .ok { s with inBrackets := false }
  else if ch = '\'' ∧ s.inBrackets = false then .ok { s with inQuotes := !s.inQuotes }
  else if ch = ':' ∧ s.inQuotes = false ∧ s.inBrackets = false ∧ s.currentField = [] then
    .ok { s with currentField := fieldName s.currentValue, currentValue := [] }
  else if ch = ' ' ∧ s.inQuotes = false ∧ s.currentField ≠ [] then
    (fieldValue s.currentValue).map fun value =>
      { s with
        dataMap := s.dataMap.insert (String.ofList s.currentField) value
        currentField := []
        currentValue := [] }
  else .ok { s with currentValue := s.currentValue ++ [ch] }

def loop : Loop → List Char → Except Fault Loop
  | s, [] => .ok s
  | s, ch :: cs => (step s ch).bind fun s => loop s cs

/-- The last field -/
def finish (s : Loop) : Except Fault Fields :=
  if s.currentField ≠ [] ∧ s.currentValue ≠ [] then
    (fieldValue s.currentValue).map fun value =>
      s.dataMap.insert (String.ofList s.currentField) value
  else .ok s.dataMap

/-! ## Messages -/

/-- `parse_logical_decoding_message`; the operations have the names that the other parser knows. -/
def parseLogicalDecodingMessage (data : String) : Except Fault (Option Event) :=
  match data.toList.splitOn ':' with
  | tableInfo :: operation :: part :: parts =>
    let tableInfo := Chars.trim tableInfo
    if ¬ "table ".toList.isPrefixOf tableInfo then .ok none
    else
      match (tableInfo.drop 6).splitOn '.' with
      | [schema, table] =>
        match TestDecoder.operationType (Chars.trim operation) with
        | none => .ok none
        | some eventType =>
          let dataPart := [':'].intercalate (part :: parts)
          ((loop ⟨[], [], false, false, []⟩ dataPart).bind finish).map fun dataMap =>
            some (.cdc ⟨eventType, String.ofList table, String.ofList schema, dataMap, none⟩)
      | _ => .ok none
  | _ => .ok none

end WalConsumer

end MeiliBridge
