import Mathlib.Data.List.AList
import MeiliBridge.Base.Bytes
import MeiliBridge.Lib.Reader
import MeiliBridge.Models.Error

/-!
# The parser of the pgoutput protocol

`PgOutputParser::parse_message` and what it calls. The cursor over the payload is a reader over its
bytes. The loop of `parse_update` goes on while the cursor is not at the end of the payload, so it
reads any number of tuples and keeps the last of each kind.
-/

set_option autoImplicit false

namespace MeiliBridge

/-! ## Messages -/

structure BeginMessage where
  finalLsn : UInt64
  timestamp : Int64
  xid : UInt32
  deriving DecidableEq

structure CommitMessage where
  flags : UInt8
  commitLsn : UInt64
  endLsn : UInt64
  timestamp : Int64
  deriving DecidableEq

structure OriginMessage where
  commitLsn : UInt64
  name : String
  deriving DecidableEq

structure Column where
  flags : UInt8
  name : String
  typeId : UInt32
  typeModifier : Int32
  deriving DecidableEq

structure RelationMessage where
  relationId : UInt32
  namespace_ : String
  relationName : String
  replicaIdentity : UInt8
  columns : List Column
  deriving DecidableEq

structure TypeMessage where
  typeId : UInt32
  namespace_ : String
  name : String
  deriving DecidableEq

/-- The columns of a row, `none` where a column is NULL or unchanged. -/
structure TupleData where
  columns : List (Option (List UInt8))
  deriving DecidableEq

structure InsertMessage where
  relationId : UInt32
  tuple : TupleData
  deriving DecidableEq

structure UpdateMessage where
  relationId : UInt32
  oldTuple : Option TupleData
  newTuple : TupleData
  deriving DecidableEq

structure DeleteMessage where
  relationId : UInt32
  oldTuple : TupleData
  deriving DecidableEq

structure TruncateMessage where
  relationCount : UInt32
  options : UInt8
  relationIds : List UInt32
  deriving DecidableEq

structure KeepaliveMessage where
  walEnd : UInt64
  timestamp : Int64
  replyRequested : Bool
  deriving DecidableEq

inductive PgOutputMessage where
  | begin (m : BeginMessage)
  | commit (m : CommitMessage)
  | origin (m : OriginMessage)
  | relation (m : RelationMessage)
  | type (m : TypeMessage)
  | insert (m : InsertMessage)
  | update (m : UpdateMessage)
  | delete (m : DeleteMessage)
  | truncate (m : TruncateMessage)
  | keepalive (m : KeepaliveMessage)
  deriving DecidableEq

structure PgOutputParser where
  relations : AList fun _ : UInt32 => RelationMessage

namespace PgOutputParser

def new : PgOutputParser := ⟨∅⟩

/-- `get_relation` -/
def getRelation (p : PgOutputParser) (relationId : UInt32) : Option RelationMessage :=
  p.relations.lookup relationId

/-! ## Reading from the cursor -/

/-- A function that reads from the cursor. -/
abbrev Parse (α : Type) := Reader UInt8 MeiliBridgeError α

/-- `std::io::ErrorKind::UnexpectedEof` -/
def eof : MeiliBridgeError := .io "failed to fill whole buffer"

/-- `as char` -/
def asChar (b : UInt8) : Char := Char.ofNat b.toNat

def readU8 : Parse UInt8 := Reader.next eof

/-- The reads of an integer of `width` bytes as `BigEndian` -/
def readBe (width : Nat) : Parse Nat := do
  let bytes ← Reader.take eof width
  pure (Bytes.ofBe bytes)

def readU16 : Parse UInt16 := do
  let n ← readBe 2
  pure (UInt16.ofNat n)

def readU32 : Parse UInt32 := do
  let n ← readBe 4
  pure (UInt32.ofNat n)

def readU64 : Parse UInt64 := do
  let n ← readBe 8
  pure (UInt64.ofNat n)

def readI32 : Parse Int32 := do
  let n ← readU32
  pure n.toInt32

def readI64 : Parse Int64 := do
  let n ← readU64
  pure n.toInt64

/-- A `MeiliBridgeError::Source` -/
def sourceError {α : Type} (msg : String) : Parse α := Reader.ofExcept (.error (.source msg))

/-- `read_string` -/
def readString : Parse String := do
  let bytes ← Reader.upTo eof (· = 0)
  match Text.fromUtf8 bytes with
  | .ok s => Reader.ofExcept (.ok s)
  | .error e => sourceError s!"Invalid UTF-8 string: {e}"

/-- One round of the loop of `parse_tuple_data` -/
def parseColumnData : Parse (Option (List UInt8)) := do
  let tupleType ← readU8
  match asChar tupleType with
  | 'n' => pure none
  | 't' => do
    let len ← readU32
    let data ← Reader.take eof len.toNat
    pure (some data)
  | 'u' => pure none
  | other => sourceError s!"Unknown tuple data type: {other}"

/-- `parse_tuple_data` -/
def parseTupleData : Parse TupleData := do
  let columnCount ← readU16
  let columns ← Reader.times parseColumnData columnCount.toNat
  pure ⟨columns⟩

/-! ## The messages -/

def parseBegin : Parse BeginMessage := do
  let finalLsn ← readU64
  let timestamp ← readI64
  let xid ← readU32
  pure ⟨finalLsn, timestamp, xid⟩

def parseCommit : Parse CommitMessage := do
  let flags ← readU8
  let commitLsn ← readU64
  let endLsn ← readU64
  let timestamp ← readI64
  pure ⟨flags, commitLsn, endLsn, timestamp⟩

def parseOrigin : Parse OriginMessage := do
  let commitLsn ← readU64
  let name ← readString
  pure ⟨commitLsn, name⟩

/-- One round of the loop of `parse_relation` -/
def parseColumn : Parse Column := do
  let flags ← readU8
  let name ← readString
  let typeId ← readU32
  let typeModifier ← readI32
  pure ⟨flags, name, typeId, typeModifier⟩

def parseRelation : Parse RelationMessage := do
  let relationId ← readU32
  let namespace_ ← readString
  let relationName ← readString
  let replicaIdentity ← readU8
  let columnCount ← readU16
  let columns ← Reader.times parseColumn columnCount.toNat
  pure ⟨relationId, namespace_, relationName, replicaIdentity, columns⟩

def parseType : Parse TypeMessage := do
  let typeId ← readU32
  let namespace_ ← readString
  let name ← readString
  pure ⟨typeId, namespace_, name⟩

def parseInsert : Parse InsertMessage := do
  let relationId ← readU32
  let tupleType ← readU8
  match asChar tupleType with
  | 'N' => do
    let tuple ← parseTupleData
    pure ⟨relationId, tuple⟩
  | other => sourceError s!"Expected 'N' tuple type for INSERT, got {other}"

theorem parseColumnData_leavesEnd : Reader.LeavesEnd parseColumnData := by
  refine .bind (.next _) fun tupleType => ?_
  split
  · exact .pure _
  · refine .bind ?_ fun len => (Reader.LeavesEnd.take _ _).bind fun _ => .pure _
    exact .bind ((Reader.LeavesEnd.take _ _).bind fun _ => .pure _) fun _ => .pure _
  · exact .pure _
  · exact .ofExcept _

theorem parseTupleData_leavesEnd : Reader.LeavesEnd parseTupleData := by
  refine .bind ?_ fun count => (parseColumnData_leavesEnd.times _).bind fun _ => .pure _
  exact .bind ((Reader.LeavesEnd.take _ _).bind fun _ => .pure _) fun _ => .pure _

/-- The loop of `parse_update`: the old and the new tuple read last. -/
def updateTuples (oldTuple newTuple : Option TupleData) (bytes : List UInt8) :
    Except MeiliBridgeError ((Option TupleData × Option TupleData) × List UInt8) :=
  match bytes with
  | [] => .ok ((oldTuple, newTuple), [])
  | tupleType :: bytes =>
    match asChar tupleType with
    | 'O' | 'K' =>
      match _h : parseTupleData.on bytes with
      | .ok (tuple, rest) => updateTuples (some tuple) newTuple rest
      | .error e => .error e
    | 'N' =>
      match _h : parseTupleData.on bytes with
      | .ok (tuple, rest) => updateTuples oldTuple (some tuple) rest
      | .error e => .error e
    | other => .error (.source s!"Unknown tuple type in UPDATE: {other}")
  termination_by bytes.length
  decreasing_by
  all_goals
    have hlen := (parseTupleData_leavesEnd _ _ _ _h).length_le
    simp only [List.length_cons]
    omega

def parseUpdate : Parse UpdateMessage := do
  let relationId ← readU32
  let (oldTuple, newTuple) ← updateTuples none none
  match newTuple with
  | some newTuple => pure ⟨relationId, oldTuple, newTuple⟩
  | none => sourceError "UPDATE missing new tuple"

def parseDelete : Parse DeleteMessage := do
  let relationId ← readU32
  let tupleType ← readU8
  match asChar tupleType with
  | 'O' | 'K' => do
    let oldTuple ← parseTupleData
    pure ⟨relationId, oldTuple⟩
  | other => sourceError s!"Expected 'O' or 'K' tuple type for DELETE, got {other}"

def parseTruncate : Parse TruncateMessage := do
  let relationCount ← readU32
  let options ← readU8
  let relationIds ← Reader.times readU32 relationCount.toNat
  pure ⟨relationCount, options, relationIds⟩

def parseKeepalive : Parse KeepaliveMessage := do
  let walEnd ← readU64
  let timestamp ← readI64
  let replyRequested ← readU8
  pure ⟨walEnd, timestamp, replyRequested ≠ 0⟩

/-- The message that `parse` makes of a payload; bytes after it are ignored. -/
def message {α : Type} (parse : Parse α) (wrap : α → PgOutputMessage) (payload : List UInt8) :
    Result (Option PgOutputMessage) :=
  (parse.on payload).map fun r => some (wrap r.1)

/-- `parse_message` -/
def parseMessage (p : PgOutputParser) (data : List UInt8) :
    Result (Option PgOutputMessage) × PgOutputParser :=
  match data with
  | [] => (.ok none, p)
  | msgType :: payload =>
    match asChar msgType with
    | 'B' => (message parseBegin .begin payload, p)
    | 'C' => (message parseCommit .commit payload, p)
    | 'O' => (message parseOrigin .origin payload, p)
    | 'R' =>
      match parseRelation.on payload with
      | .ok (relation, _) =>
        (.ok (some (.relation relation)),
          { p with relations := p.relations.insert relation.relationId relation })
      | .error e => (.error e, p)
    | 'Y' => (message parseType .type payload, p)
    | 'I' => (message parseInsert .insert payload, p)
    | 'U' => (message parseUpdate .update payload, p)
    | 'D' => (message parseDelete .delete payload, p)
    | 'T' => (message parseTruncate .truncate payload, p)
    | 'k' => (message parseKeepalive .keepalive payload, p)
    | _ => (.ok none, p)

end PgOutputParser

end MeiliBridge
