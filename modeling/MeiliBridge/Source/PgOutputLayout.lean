import Mathlib.Data.List.Forall2
import MeiliBridge.Source.PgOutput

/-!
# The layout of pgoutput messages, and that the parser undoes it

`Layout m bytes` says that the bytes are the message as the server lays it out. Every parser reads
exactly the layout of its message: it returns the message and refuses every strict prefix
(`Reader.ReadsAll`). The one that reads on to the end of its payload is the parser of updates, whose
loop may stop after the old tuple only to find that there is no new one.
-/

set_option autoImplicit false

namespace MeiliBridge

namespace PgOutput

open Reader PgOutputParser

/-! ## The layout -/

def tag (c : Char) : UInt8 := UInt8.ofNat c.toNat

def u16 (n : Nat) : List UInt8 := Bytes.be 2 n

def u32 (n : UInt32) : List UInt8 := Bytes.be 4 n.toNat

def u64 (n : UInt64) : List UInt8 := Bytes.be 8 n.toNat

def i32 (n : Int32) : List UInt8 := u32 n.toUInt32

def i64 (n : Int64) : List UInt8 := u64 n.toUInt64

/-- A string and the zero byte that ends it. -/
def cstring (s : String) : List UInt8 := Text.utf8 s ++ [0]

inductive DataLayout : Option (List UInt8) → List UInt8 → Prop
  | null : DataLayout none [tag 'n']
  | unchanged : DataLayout none [tag 'u']
  | text (data : List UInt8) : DataLayout (some data) (tag 't' :: Bytes.be 4 data.length ++ data)

inductive TupleLayout : TupleData → List UInt8 → Prop
  | mk (t : TupleData) (parts : List (List UInt8)) (h : List.Forall₂ DataLayout t.columns parts) :
    TupleLayout t (u16 t.columns.length ++ parts.flatten)

def columnBytes (c : Column) : List UInt8 :=
  [c.flags] ++ (cstring c.name ++ (u32 c.typeId ++ i32 c.typeModifier))

/-- The tags of an old tuple: all columns, or those of the key. -/
def OldTag (b : UInt8) : Prop := b = tag 'O' ∨ b = tag 'K'

inductive Layout : PgOutputMessage → List UInt8 → Prop
  | begin (m : BeginMessage) :
    Layout (.begin m) (tag 'B' :: (u64 m.finalLsn ++ (i64 m.timestamp ++ u32 m.xid)))
  | commit (m : CommitMessage) :
    Layout (.commit m)
      (tag 'C' :: ([m.flags] ++ (u64 m.commitLsn ++ (u64 m.endLsn ++ i64 m.timestamp))))
  | origin (m : OriginMessage) : Layout (.origin m) (tag 'O' :: (u64 m.commitLsn ++ cstring m.name))
  | relation (m : RelationMessage) :
    Layout (.relation m)
      (tag 'R' :: (u32 m.relationId ++ (cstring m.namespace_ ++ (cstring m.relationName ++
        ([m.replicaIdentity] ++ (u16 m.columns.length ++ (m.columns.map columnBytes).flatten))))))
  | type (m : TypeMessage) :
    Layout (.type m) (tag 'Y' :: (u32 m.typeId ++ (cstring m.namespace_ ++ cstring m.name)))
  | insert (m : InsertMessage) (tuple : List UInt8) (h : TupleLayout m.tuple tuple) :
    Layout (.insert m) (tag 'I' :: (u32 m.relationId ++ ([tag 'N'] ++ tuple)))
  | update (m : UpdateMessage) (new : List UInt8) (hold : m.oldTuple = none)
      (hnew : TupleLayout m.newTuple new) :
    Layout (.update m) (tag 'U' :: (u32 m.relationId ++ (tag 'N' :: new)))
  | updateOld (m : UpdateMessage) (t : UInt8) (oldTuple : TupleData) (old new : List UInt8)
      (ht : OldTag t) (hsome : m.oldTuple = some oldTuple) (hold : TupleLayout oldTuple old)
      (hnew : TupleLayout m.newTuple new) :
    Layout (.update m) (tag 'U' :: (u32 m.relationId ++ (t :: (old ++ (tag 'N' :: new)))))
  | delete (m : DeleteMessage) (t : UInt8) (old : List UInt8) (ht : OldTag t)
      (h : TupleLayout m.oldTuple old) :
    Layout (.delete m) (tag 'D' :: (u32 m.relationId ++ ([t] ++ old)))
  | truncate (m : TruncateMessage) :
    Layout (.truncate m)
      (tag 'T' :: (u32 m.relationCount ++ ([m.options] ++ (m.relationIds.map u32).flatten)))
  | keepalive (m : KeepaliveMessage) (reply : UInt8) (h : m.replyRequested = decide (reply ≠ 0)) :
    Layout (.keepalive m) (tag 'k' :: (u64 m.walEnd ++ (i64 m.timestamp ++ [reply])))

/-! ## Well-formed messages -/

/-- A string that can be laid out: the zero byte ends it. -/
def NoNul (s : String) : Prop := (0 : UInt8) ∉ Text.utf8 s

instance (s : String) : Decidable (NoNul s) := inferInstanceAs (Decidable (_ ∉ _))

def TupleData.WellFormed (t : TupleData) : Prop :=
  t.columns.length ≤ 65535 ∧ ∀ data, some data ∈ t.columns → data.length < 2 ^ 32

/-- The strings, counts and lengths of the message fit their places in the layout. -/
def WellFormed : PgOutputMessage → Prop
  | .begin _ | .commit _ | .keepalive _ => True
  | .origin m => NoNul m.name
  | .relation m => NoNul m.namespace_ ∧ NoNul m.relationName ∧ m.columns.length ≤ 65535 ∧
    ∀ c ∈ m.columns, NoNul c.name
  | .type m => NoNul m.namespace_ ∧ NoNul m.name
  | .insert m => TupleData.WellFormed m.tuple
  | .update m => (∀ t, m.oldTuple = some t → TupleData.WellFormed t) ∧
    TupleData.WellFormed m.newTuple
  | .delete m => TupleData.WellFormed m.oldTuple
  | .truncate m => m.relationIds.length = m.relationCount.toNat

/-! ## What each reader reads -/

theorem reads_be {width n : Nat} (h : n < 256 ^ width) :
    Reads (readBe width) (Bytes.be width n) n := by
  have hread := (Reads.take eof (Bytes.length_be width n)).bind_pure Bytes.ofBe
  rwa [Bytes.ofBe_be, Nat.mod_eq_of_lt h] at hread

theorem reads_u16 {n : Nat} (h : n ≤ 65535) : Reads readU16 (u16 n) (UInt16.ofNat n) :=
  (reads_be (by omega)).bind_pure UInt16.ofNat

theorem reads_u32 (n : UInt32) : Reads readU32 (u32 n) n := by
  have hlt : n.toNat < 256 ^ 4 := n.toNat_lt
  have hread := (reads_be hlt).bind_pure UInt32.ofNat
  rwa [UInt32.ofNat_toNat] at hread

theorem reads_u64 (n : UInt64) : Reads readU64 (u64 n) n := by
  have hlt : n.toNat < 256 ^ 8 := n.toNat_lt
  have hread := (reads_be hlt).bind_pure UInt64.ofNat
  rwa [UInt64.ofNat_toNat] at hread

theorem reads_i32 (n : Int32) : Reads readI32 (i32 n) n := by
  have hread := (reads_u32 n.toUInt32).bind_pure UInt32.toInt32
  rwa [Int32.toInt32_toUInt32] at hread

theorem reads_i64 (n : Int64) : Reads readI64 (i64 n) n := by
  have hread := (reads_u64 n.toUInt64).bind_pure UInt64.toInt64
  rwa [Int64.toInt64_toUInt64] at hread

theorem reads_u8 (b : UInt8) : Reads readU8 [b] b := .next eof b

theorem reads_string {s : String} (h : NoNul s) : Reads readString (cstring s) s := by
  have hnul : ∀ b ∈ Text.utf8 s, (decide (b = 0)) = false := by
    intro b hb
    refine decide_eq_false ?_
    intro heq
    exact h (heq ▸ hb)
  rw [← List.append_nil (cstring s)]
  refine (Reads.upTo eof hnul (decide_eq_true rfl)).bind ?_
  rw [Text.fromUtf8_utf8]
  exact .ofExcept s

theorem reads_columnData {d : Option (List UInt8)} {bytes : List UInt8} (h : DataLayout d bytes)
    (hlen : ∀ data, d = some data → data.length < 2 ^ 32) : Reads parseColumnData bytes d := by
  cases h with
  | null => exact (reads_u8 (tag 'n')).bind (.pure none)
  | unchanged => exact (reads_u8 (tag 'u')).bind (.pure none)
  | text data =>
    have hdata : data.length < 2 ^ 32 := hlen data rfl
    have hcount : data.length = (UInt32.ofNat data.length).toNat := by
      rw [UInt32.toNat_ofNat', Nat.mod_eq_of_lt hdata]
    have hread : Reads readU32 (Bytes.be 4 data.length) (UInt32.ofNat data.length) :=
      (reads_be hdata).bind_pure UInt32.ofNat
    exact (reads_u8 (tag 't')).bind (hread.bind ((Reads.take eof hcount).bind_pure some))

theorem reads_columns : ∀ {columns : List (Option (List UInt8))} {parts : List (List UInt8)},
    List.Forall₂ DataLayout columns parts →
    (∀ data, some data ∈ columns → data.length < 2 ^ 32) →
    List.Forall₂ (fun d bytes => Reads parseColumnData bytes d) columns parts
  | _, _, .nil, _ => .nil
  | _, _, .cons hd hrest, hlen =>
    .cons (reads_columnData hd fun data heq => hlen data (heq ▸ List.mem_cons_self))
      (reads_columns hrest fun data hmem => hlen data (List.mem_cons_of_mem _ hmem))

theorem reads_tupleData {t : TupleData} {bytes : List UInt8} (h : TupleLayout t bytes)
    (hwell : TupleData.WellFormed t) : Reads parseTupleData bytes t := by
  cases h with
  | mk parts hparts =>
    obtain ⟨hcount, hlen⟩ := hwell
    have hn : (UInt16.ofNat t.columns.length).toNat = t.columns.length := by
      rw [UInt16.toNat_ofNat', Nat.mod_eq_of_lt (by omega)]
    refine (reads_u16 hcount).bind ?_
    rw [hn]
    exact (Reads.times (reads_columns hparts hlen)).bind_pure TupleData.mk

theorem reads_column {c : Column} (h : NoNul c.name) : Reads parseColumn (columnBytes c) c :=
  (reads_u8 _).bind ((reads_string h).bind ((reads_u32 _).bind ((reads_i32 _).bind_pure _)))

theorem reads_map {α : Type} {p : Parse α} {code : α → List UInt8} {as : List α}
    (h : ∀ a ∈ as, Reads p (code a) a) : Reads (times p as.length) (as.map code).flatten as :=
  Reads.times (List.forall₂_map_right_iff.mpr (List.forall₂_same.mpr h))

theorem reads_relation {m : RelationMessage} (h : WellFormed (.relation m)) :
    ReadsAll parseRelation (u32 m.relationId ++ (cstring m.namespace_ ++ (cstring m.relationName ++
      ([m.replicaIdentity] ++
        (u16 m.columns.length ++ (m.columns.map columnBytes).flatten))))) m := by
  obtain ⟨hnamespace, hname, hcount, hcolumns⟩ := h
  have hn : (UInt16.ofNat m.columns.length).toNat = m.columns.length := by
    rw [UInt16.toNat_ofNat', Nat.mod_eq_of_lt (by omega)]
  refine Reads.all ((reads_u32 _).bind ((reads_string hnamespace).bind ((reads_string hname).bind
    ((reads_u8 _).bind ((reads_u16 hcount).bind ?_)))))
  rw [hn]
  exact (reads_map fun c hc => reads_column (hcolumns c hc)).bind_pure _

/-! ### Updates -/

theorem updateTuples_old {t : UInt8} (ht : OldTag t) (oldTuple newTuple : Option TupleData)
    (bytes : List UInt8) : updateTuples oldTuple newTuple (t :: bytes) =
      (parseTupleData.on bytes).bind fun r => updateTuples (some r.1) newTuple r.2 := by
  have hchar : asChar t = 'O' ∨ asChar t = 'K' := by
    rcases ht with rfl | rfl
    · exact Or.inl rfl
    · exact Or.inr rfl
  rw [updateTuples]
  split
  · split
    · next h => rw [h]; rfl
    · next h => rw [h]; rfl
  · split
    · next h => rw [h]; rfl
    · next h => rw [h]; rfl
  · next hN =>
    rw [hN] at hchar
    exact absurd hchar (by decide)
  · next hO hK _ => exact (hchar.elim hO hK).elim

theorem updateTuples_new (oldTuple newTuple : Option TupleData) (bytes : List UInt8) :
    updateTuples oldTuple newTuple (tag 'N' :: bytes) =
      (parseTupleData.on bytes).bind fun r => updateTuples oldTuple (some r.1) r.2 := by
  have hchar : asChar (tag 'N') = 'N' := rfl
  rw [updateTuples]
  split
  · next hO => exact absurd hO (by decide)
  · next hK => exact absurd hK (by decide)
  · split
    · next h => rw [h]; rfl
    · next h => rw [h]; rfl
  · next hN => exact (hN hchar).elim

section

variable {f : Option TupleData × Option TupleData → Parse UpdateMessage} {m : UpdateMessage}

/-- What the loop leaves to the rest of the parser. -/
theorem on_updateTuples_bind (oldTuple newTuple : Option TupleData) (bytes : List UInt8) :
    (updateTuples oldTuple newTuple >>= f : Parse UpdateMessage).on bytes =
      (updateTuples oldTuple newTuple bytes).bind fun r => (f r.1).on r.2 :=
  on_bind ..

/-- The rest of the parser refuses a payload without a new tuple. -/
def NeedsNew (f : Option TupleData × Option TupleData → Parse UpdateMessage) : Prop :=
  ∀ oldTuple bytes, ∃ e, (f (oldTuple, none)).on bytes = .error e

theorem refuses_end (hneeds : NeedsNew f) (oldTuple : Option TupleData) :
    ∃ e, (updateTuples oldTuple none >>= f : Parse UpdateMessage).on [] = .error e := by
  obtain ⟨e, he⟩ := hneeds oldTuple []
  refine ⟨e, ?_⟩
  rw [on_updateTuples_bind, updateTuples]
  exact he

/-- The new tuple comes last. -/
theorem readsAll_new {oldTuple : Option TupleData} {newTuple : TupleData} {new : List UInt8}
    (hnew : Reads parseTupleData new newTuple) (hneeds : NeedsNew f)
    (hdone : f (oldTuple, some newTuple) = pure m) :
    ReadsAll (updateTuples oldTuple none >>= f : Parse UpdateMessage) (tag 'N' :: new) m where
  accepts := by
    rw [on_updateTuples_bind, updateTuples_new, hnew.all.accepts]
    show (updateTuples oldTuple (some newTuple) []).bind _ = _
    rw [updateTuples]
    show (f (oldTuple, some newTuple)).on [] = _
    rw [hdone]
    rfl
  refuses q hq hne := by
    rcases List.prefix_cons_iff.mp hq with rfl | ⟨q', rfl, hq'⟩
    · exact refuses_end hneeds oldTuple
    · obtain ⟨e, he⟩ := hnew.refuses q' hq' fun heq => hne (by rw [heq])
      exact ⟨e, by rw [on_updateTuples_bind, updateTuples_new, he]; rfl⟩

/-- An old tuple comes first. A payload that ends after it has no new one. -/
theorem readsAll_old {t : UInt8} (ht : OldTag t) {oldTuple : TupleData} {old bytes : List UInt8}
    (hold : Reads parseTupleData old oldTuple) (hneeds : NeedsNew f)
    (hrest : ReadsAll (updateTuples (some oldTuple) none >>= f : Parse UpdateMessage) bytes m) :
    ReadsAll (updateTuples none none >>= f : Parse UpdateMessage) (t :: (old ++ bytes)) m where
  accepts := by
    rw [on_updateTuples_bind, updateTuples_old ht, hold.accepts]
    exact hrest.accepts
  refuses q hq hne := by
    rcases List.prefix_cons_iff.mp hq with rfl | ⟨q', rfl, hq'⟩
    · exact refuses_end hneeds none
    · rcases strict_prefix_append hq' fun heq =>
        hne (by rw [heq]) with ⟨hcut, hne'⟩ | ⟨q, rfl, hcut, hne'⟩
      · obtain ⟨e, he⟩ := hold.refuses q' hcut hne'
        exact ⟨e, by rw [on_updateTuples_bind, updateTuples_old ht, he]; rfl⟩
      · obtain ⟨e, he⟩ := hrest.refuses q hcut hne'
        refine ⟨e, ?_⟩
        rw [on_updateTuples_bind, updateTuples_old ht, hold.accepts]
        exact he

end

theorem reads_update {m : UpdateMessage} {new : List UInt8} (hold : m.oldTuple = none)
    (hnew : Reads parseTupleData new m.newTuple) :
    ReadsAll parseUpdate (u32 m.relationId ++ (tag 'N' :: new)) m := by
  refine (reads_u32 _).bind_all (readsAll_new hnew ?_ ?_)
  · intro oldTuple bytes
    exact ⟨_, rfl⟩
  · show pure (⟨m.relationId, none, m.newTuple⟩ : UpdateMessage) = _
    rw [← hold]

theorem reads_updateOld {m : UpdateMessage} {t : UInt8} {oldTuple : TupleData}
    {old new : List UInt8} (ht : OldTag t) (hsome : m.oldTuple = some oldTuple)
    (hold : Reads parseTupleData old oldTuple) (hnew : Reads parseTupleData new m.newTuple) :
    ReadsAll parseUpdate (u32 m.relationId ++ (t :: (old ++ (tag 'N' :: new)))) m := by
  refine (reads_u32 _).bind_all (readsAll_old ht hold ?needs (readsAll_new hnew ?needs ?done))
  case needs =>
    intro oldTuple bytes
    exact ⟨_, rfl⟩
  case done =>
    show pure (⟨m.relationId, some oldTuple, m.newTuple⟩ : UpdateMessage) = _
    rw [← hsome]

/-! ## Whole messages -/

/-- What a message leaves in the parser. -/
def after (p : PgOutputParser) : PgOutputMessage → PgOutputParser
  | .relation r => { p with relations := p.relations.insert r.relationId r }
  | _ => p

/-- The parser reads the message from these bytes, and refuses every part of them that it can be
cut off at, and then stays as it was. -/
structure Parses (m : PgOutputMessage) (bytes : List UInt8) : Prop where
  accepts : ∀ p : PgOutputParser, p.parseMessage bytes = (.ok (some m), after p m)
  refuses : ∀ (p : PgOutputParser) (q : List UInt8), q <+: bytes → q ≠ bytes → q ≠ [] →
    ∃ e, p.parseMessage q = (.error e, p)

/-- A message whose parser only answers. -/
theorem parses_message {α : Type} {parse : Parse α} {wrap : α → PgOutputMessage} {t : UInt8}
    {payload : List UInt8} {a : α} (h : ReadsAll parse payload a)
    (hparse : ∀ (p : PgOutputParser) bytes,
      p.parseMessage (t :: bytes) = (message parse wrap bytes, p))
    (hafter : ∀ p, after p (wrap a) = p) : Parses (wrap a) (t :: payload) where
  accepts p := by
    rw [hparse, message, h.accepts, hafter]
    rfl
  refuses p q hq hne hnil := by
    rcases List.prefix_cons_iff.mp hq with rfl | ⟨q', rfl, hq'⟩
    · exact absurd rfl hnil
    · obtain ⟨e, he⟩ := h.refuses q' hq' fun heq => hne (by rw [heq])
      exact ⟨e, by rw [hparse, message, he]; rfl⟩

theorem parseMessage_relation (p : PgOutputParser) (bytes : List UInt8) :
    p.parseMessage (tag 'R' :: bytes) =
      match parseRelation.on bytes with
      | .ok (relation, _) => (.ok (some (.relation relation)), after p (.relation relation))
      | .error e => (.error e, p) := rfl

theorem parses_relation {m : RelationMessage} {payload : List UInt8}
    (h : ReadsAll parseRelation payload m) : Parses (.relation m) (tag 'R' :: payload) where
  accepts p := by rw [parseMessage_relation, h.accepts]
  refuses p q hq hne hnil := by
    rcases List.prefix_cons_iff.mp hq with rfl | ⟨q', rfl, hq'⟩
    · exact absurd rfl hnil
    · obtain ⟨e, he⟩ := h.refuses q' hq' fun heq => hne (by rw [heq])
      exact ⟨e, by rw [parseMessage_relation, he]⟩

/-- **Every layout of a well-formed message is parsed as that message.** -/
theorem parses_layout {m : PgOutputMessage} {bytes : List UInt8} (h : Layout m bytes)
    (hwell : WellFormed m) : Parses m bytes := by
  -- each parser reads field by field, and its rule is put together from theirs in the same order
  cases h with
  | begin m =>
    exact parses_message ((reads_u64 _).bind ((reads_i64 _).bind ((reads_u32 _).bind_pure _))).all
      (fun _ _ => rfl) fun _ => rfl
  | commit m =>
    exact parses_message ((reads_u8 _).bind ((reads_u64 _).bind ((reads_u64 _).bind
      ((reads_i64 _).bind_pure _)))).all (fun _ _ => rfl) fun _ => rfl
  | origin m =>
    exact parses_message ((reads_u64 _).bind ((reads_string hwell).bind_pure _)).all
      (fun _ _ => rfl) fun _ => rfl
  | relation m => exact parses_relation (reads_relation hwell)
  | type m =>
    exact parses_message ((reads_u32 _).bind ((reads_string hwell.1).bind
      ((reads_string hwell.2).bind_pure _))).all (fun _ _ => rfl) fun _ => rfl
  | insert m tuple htuple =>
    exact parses_message ((reads_u32 _).bind ((reads_u8 (tag 'N')).bind
      ((reads_tupleData htuple hwell).bind_pure _))).all (fun _ _ => rfl) fun _ => rfl
  | update m new hold hnew =>
    exact parses_message (reads_update hold (reads_tupleData hnew hwell.2))
      (fun _ _ => rfl) fun _ => rfl
  | updateOld m t oldTuple old new ht hsome hold hnew =>
    exact parses_message (reads_updateOld ht hsome (reads_tupleData hold (hwell.1 _ hsome))
      (reads_tupleData hnew hwell.2)) (fun _ _ => rfl) fun _ => rfl
  | delete m t old ht hold =>
    have hread : Reads parseDelete (u32 m.relationId ++ ([t] ++ old)) m := by
      refine (reads_u32 _).bind ((reads_u8 t).bind ?_)
      rcases ht with rfl | rfl <;> exact (reads_tupleData hold hwell).bind_pure _
    exact parses_message hread.all (fun _ _ => rfl) fun _ => rfl
  | truncate m =>
    have hread : Reads parseTruncate
        (u32 m.relationCount ++ ([m.options] ++ (m.relationIds.map u32).flatten)) m := by
      refine (reads_u32 _).bind ((reads_u8 _).bind ?_)
      rw [← show m.relationIds.length = m.relationCount.toNat from hwell]
      exact (reads_map fun n _ => reads_u32 n).bind_pure _
    exact parses_message hread.all (fun _ _ => rfl) fun _ => rfl
  | keepalive m reply hreply =>
    have hread : Reads parseKeepalive (u64 m.walEnd ++ (i64 m.timestamp ++ [reply])) m := by
      obtain ⟨walEnd, timestamp, replyRequested⟩ := m
      obtain rfl : replyRequested = decide (reply ≠ 0) := hreply
      exact (reads_u64 _).bind ((reads_i64 _).bind ((reads_u8 reply).bind_pure _))
    exact parses_message hread.all (fun _ _ => rfl) fun _ => rfl

/-! ## Sequences of messages -/

/-- One message after the other through the same parser. -/
def parseAll (p : PgOutputParser) :
    List (List UInt8) → List (Result (Option PgOutputMessage)) × PgOutputParser
  | [] => ([], p)
  | bytes :: rest =>
    let (r, p) := p.parseMessage bytes
    let (rs, p) := parseAll p rest
    (r :: rs, p)

/-- The relation messages for an id, in order. -/
def relationsOf (id : UInt32) (ms : List PgOutputMessage) : List RelationMessage :=
  ms.filterMap fun m =>
    match m with
    | .relation r => if r.relationId = id then some r else none
    | _ => none

/-- The last relation message for an id. -/
def lastRelation (id : UInt32) (ms : List PgOutputMessage) : Option RelationMessage :=
  (relationsOf id ms).getLast?

theorem lastRelation_cons (id : UInt32) (m : PgOutputMessage) (ms : List PgOutputMessage) :
    lastRelation id (m :: ms) = (lastRelation id ms).or (lastRelation id [m]) := by
  have happend : relationsOf id ([m] ++ ms) = relationsOf id [m] ++ relationsOf id ms :=
    List.filterMap_append
  rw [lastRelation, ← List.singleton_append, happend, List.getLast?_append]
  rfl

theorem getRelation_after (p : PgOutputParser) (m : PgOutputMessage) (id : UInt32) :
    (after p m).getRelation id = (lastRelation id [m]).or (p.getRelation id) := by
  cases m with
  | relation r =>
    show (p.relations.insert r.relationId r).lookup id = _
    by_cases h : r.relationId = id
    · subst h
      simp [lastRelation, relationsOf]
    · rw [AList.lookup_insert_ne (Ne.symm h)]
      simp [lastRelation, relationsOf, h, getRelation]
  | _ => rfl

/-- **The round trip.** A sequence of well-formed messages, each in some layout, is parsed as these
messages, and the relation map then holds the last relation message of each id. -/
theorem pgoutput_roundtrip (ms : List (PgOutputMessage × List UInt8))
    (h : ∀ x ∈ ms, WellFormed x.1 ∧ Layout x.1 x.2) (p : PgOutputParser) :
    (parseAll p (ms.map Prod.snd)).1 = ms.map (fun x => .ok (some x.1)) ∧
      ∀ id, (parseAll p (ms.map Prod.snd)).2.getRelation id =
        (lastRelation id (ms.map Prod.fst)).or (p.getRelation id) := by
  induction ms generalizing p with
  | nil => exact ⟨rfl, fun _ => rfl⟩
  | cons x ms ih =>
    obtain ⟨hwell, hlayout⟩ := h x List.mem_cons_self
    have hparse := (parses_layout hlayout hwell).accepts p
    obtain ⟨hresults, hrelations⟩ := ih (fun y hy => h y (List.mem_cons_of_mem _ hy)) (after p x.1)
    simp only [List.map_cons, parseAll, hparse]
    refine ⟨by rw [hresults], fun id => ?_⟩
    rw [hrelations, getRelation_after, ← Option.or_assoc, ← lastRelation_cons]

/-- A table of users with one column. -/
def usersRelation : RelationMessage := ⟨123, "public", "users", 100, [⟨1, "id", 23, -1⟩]⟩

/-- An update of a row of that table, with its old key. -/
def usersUpdate : UpdateMessage := ⟨123, some ⟨[some [49]]⟩, ⟨[some [50]]⟩⟩

theorem usersRelation_wellFormed : WellFormed (.relation usersRelation) := by
  refine ⟨by decide, by decide, by decide, ?_⟩
  intro c hc
  rcases List.mem_singleton.mp hc with rfl
  decide

theorem oneByte_layout (b : UInt8) :
    TupleLayout ⟨[some [b]]⟩ (u16 1 ++ [tag 't' :: Bytes.be 4 1 ++ [b]].flatten) :=
  .mk _ _ (.cons (.text [b]) .nil)

theorem oneByte_wellFormed (b : UInt8) : TupleData.WellFormed ⟨[some [b]]⟩ := by
  refine ⟨by simp, ?_⟩
  intro data hdata
  rcases Option.some.inj (List.mem_singleton.mp hdata) with rfl
  simp

theorem usersUpdate_wellFormed : WellFormed (.update usersUpdate) := by
  refine ⟨?_, oneByte_wellFormed 50⟩
  intro t ht
  obtain rfl := Option.some.inj ht
  exact oneByte_wellFormed 49

/-- The update, its old tuple tagged as a key. -/
def usersUpdateBytes : List UInt8 :=
  tag 'U' :: (u32 123 ++ (tag 'K' :: ((u16 1 ++ [tag 't' :: Bytes.be 4 1 ++ [49]].flatten) ++
    (tag 'N' :: (u16 1 ++ [tag 't' :: Bytes.be 4 1 ++ [50]].flatten)))))

theorem usersUpdate_layout : Layout (.update usersUpdate) usersUpdateBytes :=
  .updateOld usersUpdate _ _ _ _ (.inr rfl) rfl (oneByte_layout 49) (oneByte_layout 50)

def usersRelationBytes : List UInt8 :=
  tag 'R' :: (u32 123 ++ (cstring "public" ++ (cstring "users" ++
    ([100] ++ (u16 1 ++ ([⟨1, "id", 23, -1⟩].map columnBytes).flatten)))))

theorem pgoutput_roundtrip_users :
    (parseAll new [usersRelationBytes, usersUpdateBytes]).1 =
      [.ok (some (.relation usersRelation)), .ok (some (.update usersUpdate))] ∧
    (parseAll new [usersRelationBytes, usersUpdateBytes]).2.getRelation 123 =
      some usersRelation := by
  have h := pgoutput_roundtrip
    [(.relation usersRelation, usersRelationBytes), (.update usersUpdate, usersUpdateBytes)] ?_ new
  · exact ⟨h.1, h.2 123⟩
  · intro x hx
    rcases List.mem_cons.mp hx with rfl | hx
    · exact ⟨usersRelation_wellFormed, .relation usersRelation⟩
    · rcases List.mem_singleton.mp hx with rfl
      exact ⟨usersUpdate_wellFormed, usersUpdate_layout⟩

/-- **Truncated messages are refused.** Whatever is cut off the end of a well-formed message, the
parser answers with an error and stays as it was. -/
theorem truncated_refused (m : PgOutputMessage) (bytes q : List UInt8) (hwell : WellFormed m)
    (hlayout : Layout m bytes) (hq : q <+: bytes) (hne : q ≠ bytes) (hnil : q ≠ [])
    (p : PgOutputParser) : ∃ e, p.parseMessage q = (.error e, p) :=
  (parses_layout hlayout hwell).refuses p q hq hne hnil

/-- The update, cut off after its old tuple. -/
theorem truncated_refused_users :
    ∃ e, new.parseMessage (usersUpdateBytes.take 13) = (.error e, new) :=
  truncated_refused (.update usersUpdate) usersUpdateBytes _ usersUpdate_wellFormed
    usersUpdate_layout (List.take_prefix 13 _) (by decide) (by decide) new

end PgOutput

end MeiliBridge
