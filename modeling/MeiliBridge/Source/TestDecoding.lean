import Mathlib.Data.List.Nodup
import MeiliBridge.Models.Event

/-!
# What PostgreSQL's test_decoding plugin prints

The lines that both textual decoders are written for, from the plugin's documented output: a
qualified table, an operation, and for each column its name, its type between brackets and a
literal. Identifiers that need it are quoted. Which words are keywords that need quotes is a table
of the server's, and a parameter here.
-/

set_option autoImplicit false

namespace MeiliBridge

namespace TestDecoding

/-! ## Literals -/

/-- The characters that the output functions of numeric types use. -/
def numberChars : List Char := "0123456789+-.eENaInfity".toList

/-- What the output function of a numeric type gives. -/
abbrev NumberText : Type := { cs : List Char // cs ≠ [] ∧ ∀ c ∈ cs, c ∈ numberChars }

/-- The value of a column. -/
inductive Datum where
  | null
  | number (n : NumberText)
  | boolean (b : Bool)
  | bits (bs : List Bool)
  /-- of a textual type -/
  | text (s : String)
  /-- of any other type, by the text of its output function -/
  | other (s : String)
  /-- a value that is stored out of line and that an update leaves as it is -/
  | unchangedToast
  deriving DecidableEq

/-- Twice each occurrence of a character. -/
def double (quote : Char) (cs : List Char) : List Char :=
  cs.flatMap fun c => if c = quote then [quote, quote] else [c]

/-- A text between quotes, with its own quotes doubled. -/
def quoted (quote : Char) (cs : List Char) : List Char := quote :: (double quote cs ++ [quote])

/-- What stands for a value that is not there. -/
def unchangedToastDatum : List Char := "unchanged-toast-datum".toList

/-- `print_literal` -/
def Datum.literal : Datum → List Char
  | .null => "null".toList
  | .number n => n.val
  | .boolean true => "true".toList
  | .boolean false => "false".toList
  | .bits bs => 'B' :: '\'' :: (bs.map (fun b => if b then '1' else '0') ++ ['\''])
  | .text s | .other s => quoted '\'' s.toList
  | .unchangedToast => unchangedToastDatum

/-! ## Identifiers -/

/-- A lowercase letter or an underscore -/
def isSafeStart (c : Char) : Bool := ('a' ≤ c && c ≤ 'z') || c == '_'

/-- A lowercase letter, a digit or an underscore -/
def isSafeChar (c : Char) : Bool := isSafeStart c || ('0' ≤ c && c ≤ '9')

variable (keyword : String → Bool)

/-- The identifier is printed as it is. -/
def isSafe (name : String) : Bool :=
  (match name.toList with
    | [] => false
    | c :: cs => isSafeStart c && cs.all isSafeChar) && !keyword name

/-- `quote_identifier` -/
def quoteIdentifier (name : String) : List Char :=
  if isSafe keyword name then name.toList else quoted '"' name.toList

/-! ## Lines -/

structure PrintedColumn where
  name : String
  /-- as `format_type_be` prints it -/
  typeName : String
  datum : Datum
  deriving DecidableEq

/-- What follows the operation, each part after a blank. -/
inductive Item where
  | column (c : PrintedColumn)
  | oldKey
  | newTuple
  | noTuple

def Item.text : Item → List Char
  | .column c =>
    quoteIdentifier keyword c.name ++ '[' :: (c.typeName.toList ++ ']' :: ':' :: c.datum.literal)
  | .oldKey => "old-key:".toList
  | .newTuple => "new-tuple:".toList
  | .noTuple => "(no-tuple-data)".toList

inductive Operation where
  | insert
  | update
  | delete
  deriving DecidableEq

/-- The name of an operation -/
def Operation.name : Operation → List Char
  | .insert => "INSERT".toList
  | .update => "UPDATE".toList
  | .delete => "DELETE".toList

def Operation.eventType : Operation → EventType
  | .insert => .create
  | .update => .update
  | .delete => .delete

/-- The items, each after a blank -/
def itemsText (items : List Item) : List Char := items.flatMap fun i => ' ' :: i.text keyword

/-- A line of the plugin's output. -/
def line (schema table : String) (operation : Operation) (items : List Item) : List Char :=
  "table ".toList ++ (quoteIdentifier keyword schema ++ '.' :: (quoteIdentifier keyword table ++
    ':' :: ' ' :: (operation.name ++ ':' :: itemsText keyword items)))

/-- A change of a row. -/
structure Change where
  schema : String
  table : String
  operation : Operation
  columns : List PrintedColumn
  /-- the columns of a table have different names -/
  distinct : (columns.map (·.name)).Nodup

/-- The columns that are printed: a deletion leaves NULLs out. -/
def Change.printed (c : Change) : List PrintedColumn :=
  if c.operation = .delete then c.columns.filter (·.datum ≠ .null) else c.columns

theorem Change.printed_sublist (c : Change) : c.printed.Sublist c.columns := by
  rw [Change.printed]
  split
  · exact List.filter_sublist
  · exact List.Sublist.refl _

theorem Change.printed_nodup (c : Change) : (c.printed.map (·.name)).Nodup :=
  c.distinct.sublist (c.printed_sublist.map _)

/-- The items of a change; a deletion without a replica identity has no tuple. -/
def Change.items (c : Change) : List Item :=
  if c.operation = .delete ∧ c.columns = [] then [.noTuple] else c.printed.map .column

/-- The line of a change, which is without an old key if it is an update. -/
def Change.message (c : Change) : String :=
  String.ofList (line keyword c.schema c.table c.operation c.items)

/-- A line about a row, with at least one column; an update may have an old key. -/
structure RowLine where
  change : Change
  /-- the columns of the old key that are not NULL -/
  oldKey : Option (List PrintedColumn)
  isUpdate : oldKey ≠ none → change.operation = .update
  /-- the columns of a key are columns of its table, in their order -/
  keyNames : ∀ key ∈ oldKey, (key.map (·.name)).Sublist (change.columns.map (·.name))
  nonempty : change.printed ≠ []

/-- A key has no more columns than are printed after it. -/
theorem RowLine.length_key {l : RowLine} {key : List PrintedColumn} (h : l.oldKey = some key) :
    key.length ≤ l.change.printed.length := by
  have hupdate := l.isUpdate (by simp [h])
  have hprinted : l.change.printed = l.change.columns := by
    rw [Change.printed, hupdate, if_neg (by simp)]
  have hlength := (l.keyNames key h).length_le
  rw [hprinted]
  simpa using hlength

/-- What is printed of the row, after the marker of an old key. -/
def RowLine.rowItems (l : RowLine) : List Item :=
  match l.oldKey with
  | none => l.change.printed.map .column
  | some key => key.map .column ++ .newTuple :: l.change.printed.map .column

def RowLine.items (l : RowLine) : List Item :=
  if l.oldKey = none then l.rowItems else .oldKey :: l.rowItems

def RowLine.message (l : RowLine) : String :=
  String.ofList (line keyword l.change.schema l.change.table l.change.operation l.items)

end TestDecoding

end MeiliBridge
