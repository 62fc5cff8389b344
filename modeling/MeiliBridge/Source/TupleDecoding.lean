import MeiliBridge.Models.Event
import MeiliBridge.Source.PgOutput
import MeiliBridge.Source.Types

/-!
# Rows of pgoutput messages

`_process_pgoutput_message` of the WAL consumer: the columns of a tuple are decoded by the types
that the relation gives them. A column that has no data, or whose data are refused, is NULL.
-/

set_option autoImplicit false

namespace MeiliBridge

namespace WalConsumer

section

variable (fromStr : String → Option Value)

/-- The value of a column: `_decode_value(..).unwrap_or(Value::Null)`, or NULL -/
def columnValue (column : Column) (columnData : Option (List UInt8)) : Except Fault Value :=
  match columnData with
  | none => .ok .null
  | some bytes =>
    match Types.decodeValue fromStr bytes column.typeId with
    | .ok value => .ok value
    | .error .panic => .error .panic
    | .error (.err _) => .ok .null

/-- The loop of `_decode_tuple_data`, from column `i` on; there may be more columns than the
relation has. -/
def decodeColumns (relation : RelationMessage) :
    Nat → List (Option (List UInt8)) → Fields → Except Fault Fields
  | _, [], data => .ok data
  | i, columnData :: rest, data =>
    match relation.columns[i]? with
    | none => decodeColumns relation (i + 1) rest data
    | some column => do
      let value ← columnValue fromStr column columnData
      decodeColumns relation (i + 1) rest (data.insert column.name value)

/-- `_decode_tuple_data`, which is never `None` -/
def decodeTupleData (tuple : TupleData) (relation : RelationMessage) : Except Fault Fields :=
  decodeColumns fromStr relation 0 tuple.columns []

/-- An event about a row of a relation, if the parser knows the relation. -/
def rowEvent (eventType : EventType) (relationId : UInt32) (tuple : TupleData)
    (parser : PgOutputParser) : Except Fault (Option Event) :=
  match parser.getRelation relationId with
  | none => .ok none
  | some relation => do
    let data ← decodeTupleData fromStr tuple relation
    pure (some (.cdc ⟨eventType, relation.relationName, relation.namespace_, data, none⟩))

/-- `_process_pgoutput_message` -/
def processPgoutputMessage (message : PgOutputMessage) (parser : PgOutputParser) :
    Except Fault (Option Event) :=
  match message with
  | .insert m => rowEvent fromStr .create m.relationId m.tuple parser
  | .update m => rowEvent fromStr .update m.relationId m.newTuple parser
  | .delete m => rowEvent fromStr .delete m.relationId m.oldTuple parser
  | _ => .ok none

end

section

variable {fromStr : String → Option Value}

/-- What the columns of a row are decoded to. -/
def columnFields (fromStr : String → Option Value) (columns : List (Column × Option (List UInt8))) :
    Fields :=
  columns.map fun c => (c.1.name, ((columnValue fromStr c.1 c.2).toOption).getD .null)

/-- The columns that the relation has are put one after the other. -/
theorem decodeColumns_ok {relation : RelationMessage} {i : Nat}
    {columns : List (Option (List UInt8))}
    {data row : Fields} (h : decodeColumns fromStr relation i columns data = .ok row) :
    row = data.insertAll (columnFields fromStr ((relation.columns.drop i).zip columns)) := by
  induction columns generalizing i data with
  | nil =>
    rw [List.zip_nil_right]
    exact (Except.ok.inj h).symm
  | cons columnData rest ih =>
    rw [decodeColumns] at h
    cases hcolumn : relation.columns[i]? with
    | none =>
      rw [hcolumn] at h
      have hbeyond := List.getElem?_eq_none_iff.mp hcolumn
      rw [ih h, List.drop_eq_nil_of_le hbeyond, List.drop_eq_nil_of_le (by omega)]
      rfl
    | some column =>
      rw [hcolumn] at h
      obtain ⟨value, hvalue, hrest⟩ := bind_eq_ok.mp h
      obtain ⟨hlt, hget⟩ := List.getElem?_eq_some_iff.mp hcolumn
      rw [ih hrest, List.drop_eq_getElem_cons hlt, hget, List.zip_cons_cons, columnFields,
        columnFields, List.map_cons, hvalue]
      rfl

theorem decodeTupleData_ok {relation : RelationMessage} {tuple : TupleData} {row : Fields}
    (h : decodeTupleData fromStr tuple relation = .ok row) :
    row = Fields.insertAll [] (columnFields fromStr (relation.columns.zip tuple.columns)) :=
  decodeColumns_ok h

end

end WalConsumer

end MeiliBridge
