import Mathlib.Data.List.Basic
import MeiliBridge.Base.Bytes
import MeiliBridge.Base.Chars
import MeiliBridge.Base.Value
import MeiliBridge.Models.Error

/-!
# Values by the type of their column

`decode_value`, which takes the textual form of a value to JSON. An array is decoded element by
element, and some of the types of the elements are taken for array types themselves, so that their
texts are decoded as arrays in turn. The parser of JSON texts is `serde_json`'s, and a parameter.
-/

set_option autoImplicit false

namespace MeiliBridge

namespace Types

/-! ## Type OIDs -/

namespace Oids

def bool : UInt32 := 16
def int8 : UInt32 := 20
def int2 : UInt32 := 21
def int4 : UInt32 := 23
def text : UInt32 := 25
def json : UInt32 := 114
def float4 : UInt32 := 700
def float8 : UInt32 := 701
def money : UInt32 := 790
def date : UInt32 := 1082
def timestamp : UInt32 := 1114
def timestamptz : UInt32 := 1184
def numeric : UInt32 := 1700
def uuid : UInt32 := 2950
def jsonb : UInt32 := 3802

def boolArray : UInt32 := 1000
def byteaArray : UInt32 := 1001
def charArray : UInt32 := 1002
def int2Array : UInt32 := 1005
def int4Array : UInt32 := 1007
def textArray : UInt32 := 1009
def int8Array : UInt32 := 1016
def float4Array : UInt32 := 1021
def float8Array : UInt32 := 1022
def oidArray : UInt32 := 1028
def jsonArray : UInt32 := 199
def timestampArray : UInt32 := 1115
def dateArray : UInt32 := 1182
def timeArray : UInt32 := 1183
def timestamptzArray : UInt32 := 1185
def intervalArray : UInt32 := 1187
def numericArray : UInt32 := 1231
def timetzArray : UInt32 := 1270
def uuidArray : UInt32 := 2951
def jsonbArray : UInt32 := 3807
def inetArray : UInt32 := 1041
def macaddrArray : UInt32 := 1040

end Oids

open Oids

/-- The array types that `is_array_type` names -/
def arrayTypes : List UInt32 :=
  [boolArray, byteaArray, charArray, int2Array, int4Array, textArray, int8Array, float4Array,
    float8Array, oidArray, jsonArray, timestampArray, dateArray, timeArray, timestamptzArray,
    intervalArray, numericArray, timetzArray, uuidArray, jsonbArray, inetArray, macaddrArray]

/-- `is_array_type` -/
def isArrayType (typeOid : UInt32) : Bool :=
  decide (typeOid ∈ arrayTypes) || decide (1000 ≤ typeOid)

/-- The arms of the match on the array type -/
def elementTypes : List (UInt32 × UInt32) :=
  [(boolArray, bool), (int2Array, int2), (int4Array, int4), (int8Array, int8),
    (float4Array, float4), (float8Array, float8), (textArray, text), (jsonArray, json),
    (jsonbArray, jsonb), (timestampArray, timestamp), (timestamptzArray, timestamptz),
    (dateArray, date), (uuidArray, uuid), (numericArray, numeric)]

/-- The type of the elements of an array; the default is text. -/
def elementType (arrayTypeOid : UInt32) : UInt32 := (elementTypes.lookup arrayTypeOid).getD text

/-! ## Scalars -/

/-- `text.parse::<iN>().unwrap_or(0)` -/
def parseInt (bits : Nat) (text : String) : Value :=
  .number (.ofI64 (((Chars.parseI64 text.toList).filter fun n =>
    -2 ^ (bits - 1) ≤ n ∧ n < 2 ^ (bits - 1)).getD 0))

/-- `json!` of a parsed `f64`, or of the default -/
def floatOr (default : Value) (text : String) : Value :=
  match F64.parse text with
  | some (.finite x) => .number (.float x)
  | some .nonFinite => .null
  | none => default

/-- `json!(0.0)` -/
def zero : Value := .number (.float ⟨0⟩)

/-- Money without its dollar signs and commas -/
def cleanMoney (text : String) : String :=
  String.ofList ((text.toList.dropWhile (· == '$')).filter (· != ','))

/-- The match on the scalar types. All other types decode to the text. -/
def decodeScalar (fromStr : String → Option Value) (text : String) (typeOid : UInt32) : Value :=
  if typeOid = bool then .bool (text = "t" ∨ text = "true")
  else if typeOid = int2 then parseInt 16 text
  else if typeOid = int4 then parseInt 32 text
  else if typeOid = int8 then parseInt 64 text
  else if typeOid = float4 ∨ typeOid = float8 then floatOr zero text
  else if typeOid = numeric then floatOr (.string text) text
  else if typeOid = money then floatOr zero (cleanMoney text)
  else if typeOid = json ∨ typeOid = jsonb then (fromStr text).getD (.string text)
  else .string text

/-! ## Arrays -/

/-- `&s[1..s.len() - 1]`, of a text whose first and last characters are ASCII. It panics where the
end comes before the start. -/
def inner (cs : List Char) : Except Fault (List Char) :=
  if cs.length < 2 then .error .panic else .ok cs.tail.dropLast

/-- The text begins with one character and ends with the other. -/
def Delimited (first last : Char) (cs : List Char) : Prop :=
  cs.head? = some first ∧ cs.getLast? = some last

instance (first last : Char) (cs : List Char) : Decidable (Delimited first last cs) :=
  inferInstanceAs (Decidable (_ ∧ _))

section

-- `decode_value` at the type of the elements
variable (decode : List UInt8 → Except Fault Value)

/-- `parse_array_element` -/
def parseArrayElement (element : List Char) : Except Fault Value :=
  let trimmed := Chars.trim element
  if trimmed = "NULL".toList then .ok .null
  else do
    let unquoted ← if Delimited '"' '"' trimmed then inner trimmed else .ok trimmed
    decode (Text.utf8 (String.ofList unquoted))

structure ArrayLoop where
  elements : List Value
  current : List Char
  inQuotes : Bool
  escapeNext : Bool

/-- One character of the content -/
def arrayStep (s : ArrayLoop) (ch : Char) : Except Fault ArrayLoop :=
  if s.escapeNext then .ok { s with current := s.current ++ [ch], escapeNext := false }
  else if ch = '\\' ∧ s.inQuotes = true then .ok { s with escapeNext := true }
  else if ch = '"' then .ok { s with inQuotes := !s.inQuotes }
  else if ch = ',' ∧ s.inQuotes = false then do
    let value ← parseArrayElement decode s.current
    pure { s with elements := s.elements ++ [value], current := [] }
  else .ok { s with current := s.current ++ [ch] }

/-- The loop of `decode_array` -/
def arrayLoop : ArrayLoop → List Char → Except Fault ArrayLoop
  | s, [] => .ok s
  | s, ch :: cs => do
    let s ← arrayStep decode s ch
    arrayLoop s cs

/-- `decode_array` -/
def decodeArray (text : List Char) : Except Fault Value :=
  if ¬ Delimited '\x7b' '\x7d' text then .ok (.string (String.ofList text))
  else do
    let content ← inner text
    if content = [] then pure (.array [])
    else
      let s ← arrayLoop decode ⟨[], [], false, false⟩ content
      if s.current ≠ [] ∨ content.getLast? = some ',' then
        let value ← parseArrayElement decode s.current
        pure (.array (s.elements ++ [value]))
      else pure (.array s.elements)

end

/-! ## The decoder -/

/-- How many levels of arrays the decoder takes apart -/
def nesting (typeOid : UInt32) : Nat :=
  if ¬ isArrayType typeOid then 0
  else if ¬ isArrayType (elementType typeOid) then 1
  else 2

theorem elementType_mem (typeOid : UInt32) :
    elementType typeOid = text ∨ ∃ pair ∈ elementTypes, elementType typeOid = pair.2 := by
  cases hlookup : elementTypes.lookup typeOid with
  | none => exact .inl (by rw [elementType, hlookup, Option.getD_none])
  | some element =>
    obtain ⟨before, after, hsplit, -⟩ := List.lookup_eq_some_iff.mp hlookup
    refine .inr ⟨(typeOid, element), by simp [hsplit], ?_⟩
    rw [elementType, hlookup, Option.getD_some]

/-- The elements of an array of arrays are texts. -/
theorem elementType_nested {typeOid : UInt32} (h : isArrayType (elementType typeOid) = true) :
    elementType (elementType typeOid) = text := by
  have hall : (elementTypes.all fun pair => !isArrayType pair.2 || elementType pair.2 == text) := by
    decide
  rcases elementType_mem typeOid with htext | ⟨pair, hpair, heq⟩
  · rw [htext] at h
    exact absurd h (by decide)
  · rw [heq] at h ⊢
    have hpair' := List.all_eq_true.mp hall pair hpair
    rw [h] at hpair'
    exact beq_iff_eq.mp hpair'

theorem nesting_elementType {typeOid : UInt32} (h : isArrayType typeOid = true) :
    nesting (elementType typeOid) < nesting typeOid := by
  have htext : isArrayType text = false := by decide
  rw [nesting, nesting, if_neg (not_not_intro h)]
  split
  · exact Nat.zero_lt_one
  · next helement =>
    rw [not_not] at helement
    rw [elementType_nested helement, if_pos (by simp [htext])]
    exact Nat.one_lt_two

/-- `decode_value` -/
def decodeValue (fromStr : String → Option Value) (bytes : List UInt8) (typeOid : UInt32) :
    Except Fault Value :=
  match Text.fromUtf8 bytes with
  | .error e => .error (.err (.source s!"Invalid UTF-8: {e}"))
  | .ok text =>
    if _h : isArrayType typeOid = true then
      decodeArray (fun bytes => decodeValue fromStr bytes (elementType typeOid)) text.toList
    else .ok (decodeScalar fromStr text typeOid)
  termination_by nesting typeOid
  decreasing_by exact nesting_elementType _h

variable {fromStr : String → Option Value} {bytes : List UInt8} {typeOid : UInt32}

/-- A text that is no UTF-8 is refused whatever the type. -/
theorem decodeValue_invalid {e : String} (h : Text.fromUtf8 bytes = .error e) :
    decodeValue fromStr bytes typeOid = .error (.err (.source s!"Invalid UTF-8: {e}")) := by
  rw [decodeValue, h]

theorem decodeValue_array {s : String} (h : Text.fromUtf8 bytes = .ok s)
    (harray : isArrayType typeOid = true) :
    decodeValue fromStr bytes typeOid =
      decodeArray (fun bytes => decodeValue fromStr bytes (elementType typeOid)) s.toList := by
  rw [decodeValue, h]
  exact dif_pos harray

theorem decodeValue_scalar {s : String} (h : Text.fromUtf8 bytes = .ok s)
    (hscalar : isArrayType typeOid = false) :
    decodeValue fromStr bytes typeOid = .ok (decodeScalar fromStr s typeOid) := by
  rw [decodeValue, h]
  exact dif_neg (by simp [hscalar])

/-- A text as a text -/
@[simp] theorem decodeValue_text (s : String) :
    decodeValue fromStr (Text.utf8 s) text = .ok (.string s) :=
  decodeValue_scalar (Text.fromUtf8_utf8 s) (by decide)

end Types

end MeiliBridge
