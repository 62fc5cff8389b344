import MeiliBridge.Destination.Documents
import MeiliBridge.Pipeline.SingleEvent

/-!
# One row of a filtered table, and its document

A task with nothing but a filter, the changes of one row, and the index its documents go to. The
filter decides on each event alone: it drops an update that has stopped matching, and it tests a
deletion on the key columns, which are all that a deletion carries. A document that was written
before then stays where it is.

`FilteredRow.step` takes one change through `process_single_event` and on to the destination;
`consistent_iff` says between which changes the index stays what the filter says.
-/

set_option autoImplicit false

namespace MeiliBridge

/-- What happens to a row. -/
inductive RowChange where
  | insert (version : Fields)
  | update (version : Fields)
  | delete

structure RowEvent where
  change : RowChange
  position : Option Position

/-- A row of a filtered table: its key columns and the id of its document. -/
structure FilteredRow where
  filter : EventFilter
  table : String
  schema : String
  key : Fields
  documentId : String

namespace RowChange

def eventType : RowChange → EventType
  | .insert _ => .create
  | .update _ => .update
  | .delete => .delete

/-- What the event carries: the new version, or only the key columns. -/
def data (key : Fields) : RowChange → Fields
  | .insert version | .update version => version
  | .delete => key

/-- The row after the change. -/
def after : RowChange → Option Fields
  | .insert version | .update version => some version
  | .delete => none

end RowChange

namespace FilteredRow

def cdcEvent (row : FilteredRow) (e : RowEvent) : CdcEvent where
  eventType := e.change.eventType
  table := row.table
  schema := row.schema
  data := e.change.data row.key
  position := e.position

def stages (row : FilteredRow) : Stages := ⟨some row.filter, none, none, none⟩

/-- Whether the filter lets the event of a change through. -/
def lets (row : FilteredRow) (change : RowChange) : Bool :=
  row.filter.isTableAllowed row.table && row.filter.isEventTypeAllowed change.eventType &&
    row.filter.checkConditions (change.data row.key)

/-- A version that passes the filter. -/
def Passes (row : FilteredRow) (version : Fields) : Prop :=
  row.filter.isTableAllowed row.table = true ∧ row.filter.checkConditions version = true

instance (row : FilteredRow) (version : Fields) : Decidable (row.Passes version) :=
  inferInstanceAs (Decidable (_ ∧ _))

theorem processSingleEvent_eq (rt : Runtime) (row : FilteredRow) (e : RowEvent) :
    row.stages.processSingleEvent rt (.cdc (row.cdcEvent e)) =
      if row.lets e.change then .kept (.cdc (row.cdcEvent e)) else .dropped := by
  have hfilter : row.stages.applyFilter (.cdc (row.cdcEvent e)) =
      if row.lets e.change then .kept (.cdc (row.cdcEvent e)) else .dropped :=
    Stages.applyFilter_of_shouldProcess rfl rfl
  rw [Stages.processSingleEvent, hfilter]
  split <;> rfl

section

variable (srv : SearchServer) (rt : Runtime) (a : MeilisearchAdapter) (row : FilteredRow)

/-- The index the events of the table are routed to. -/
def indexName : String := a.resolveIndexName rt (some row.schema) row.table row.table

/-- The row, and the documents of the search server. -/
structure State where
  version : Option Fields
  documents : Documents

/-- The document of the row in the index. -/
def State.document (s : State) : Option Value := s.documents (indexName rt a row) row.documentId

/-- One change, its event processed and then applied by the destination. -/
def step (s : State) (e : RowEvent) : State where
  version := e.change.after
  documents :=
    match row.stages.processSingleEvent rt (.cdc (row.cdcEvent e)) with
    | .kept event => srv.process rt a s.documents [event]
    | _ => s.documents

def run (s : State) (events : List RowEvent) : State := events.foldl (step srv rt a row) s

/-- The index files the version under the row's id. -/
def Filed (version : Fields) : Prop :=
  srv.documentId (indexName rt a row) (.object version) = some row.documentId

/-- A row is inserted where there is none, and updated or deleted where there is one. -/
def Fits (s : State) : RowChange → Prop
  | .insert version => s.version = none ∧ Filed srv rt a row version
  | .update version => s.version ≠ none ∧ Filed srv rt a row version
  | .delete => s.version ≠ none

/-- The changes of one row, in order. -/
def Valid : State → List RowEvent → Prop
  | _, [] => True
  | s, e :: events => Fits srv rt a row s e.change ∧ Valid (step srv rt a row s e) events

/-- The document is in the index only if the row exists and its version passes the filter. -/
def Consistent (s : State) : Prop :=
  (s.document rt a row).isSome = true → ∃ version, s.version = some version ∧ row.Passes version

/-- The filter lets the deletion through, and the destination finds the id in the key columns. -/
def Removes : Prop :=
  row.lets .delete = true ∧
    ((a.batchPrimaryKey (indexName rt a row)).bind fun pkField =>
      (row.key.get pkField).bind BatchProcessor.deleteId) = some row.documentId

/-- While the document is in the index, every new version passes the filter, and deletions reach
the destination. -/
def Meets (s : State) : RowChange → Prop
  | .insert _ => True
  | .update version => (s.document rt a row).isSome = true → row.Passes version
  | .delete => (s.document rt a row).isSome = true → Removes rt a row

end

variable {srv : SearchServer} {rt : Runtime} {a : MeilisearchAdapter} {row : FilteredRow}
  {s : State} {e : RowEvent}

theorem step_documents :
    (step srv rt a row s e).documents =
      if row.lets e.change then srv.process rt a s.documents [.cdc (row.cdcEvent e)]
      else s.documents := by
  simp only [step, processSingleEvent_eq]
  by_cases hlets : row.lets e.change = true
  · rw [if_pos hlets, if_pos hlets]
  · rw [if_neg hlets, if_neg hlets]

/-- What an event that is let through does to the index. -/
theorem process_event (hkeyed : srv.Keyed (indexName rt a row) [.cdc (row.cdcEvent e)])
    (w : Documents) :
    srv.process rt a w [.cdc (row.cdcEvent e)] (indexName rt a row) =
      KeyedLog.run (srv.operations a (indexName rt a row) [.cdc (row.cdcEvent e)])
        (w (indexName rt a row)) := by
  have hindex : a.indexName rt (.cdc (row.cdcEvent e)) = some (indexName rt a row) := rfl
  rw [SearchServer.process_singleton hindex hkeyed, SearchServer.change, Function.update_self]

theorem document_step_version {version : Fields}
    (hchange : e.change = .insert version ∨ e.change = .update version)
    (hfiled : Filed srv rt a row version) :
    (step srv rt a row s e).document rt a row =
      if row.lets e.change then some (.object version) else s.document rt a row := by
  have hupsert : BatchProcessor.upsertOf (.cdc (row.cdcEvent e)) = some (.object version) := by
    rcases hchange with h | h <;>
      simp [BatchProcessor.upsertOf, cdcEvent, h, RowChange.eventType, RowChange.data]
  have hkeyed : srv.Keyed (indexName rt a row) [.cdc (row.cdcEvent e)] := by
    intro event hmem d hd
    obtain rfl := List.mem_singleton.mp hmem
    obtain rfl := Option.some.inj (hupsert.symm.trans hd)
    exact Option.isSome_iff_exists.mpr ⟨row.documentId, hfiled⟩
  have hop : srv.operation a (indexName rt a row) (.cdc (row.cdcEvent e)) =
      some (.put row.documentId (.object version)) := by
    have hid : srv.documentId (indexName rt a row) (.object version) = some row.documentId := hfiled
    simp [SearchServer.operation, hupsert, hid]
  rw [State.document, step_documents]
  split
  · rw [process_event hkeyed]
    simp [SearchServer.operations, hop, KeyedLog.run, KeyedLog.apply, KeyedLog.Op.key,
      KeyedLog.Op.value]
  · rfl

theorem document_step_delete (hchange : e.change = .delete) :
    (step srv rt a row s e).document rt a row = none ∧ Removes rt a row ∨
      (step srv rt a row s e).document rt a row = s.document rt a row ∧ ¬ Removes rt a row := by
  have hupsert : BatchProcessor.upsertOf (.cdc (row.cdcEvent e)) = none := by
    simp [BatchProcessor.upsertOf, cdcEvent, hchange, RowChange.eventType]
  have hkeyed : srv.Keyed (indexName rt a row) [.cdc (row.cdcEvent e)] := by
    intro event hmem d hd
    obtain rfl := List.mem_singleton.mp hmem
    cases hupsert.symm.trans hd
  have hop : srv.operation a (indexName rt a row) (.cdc (row.cdcEvent e)) =
      ((a.batchPrimaryKey (indexName rt a row)).bind fun pkField =>
        (row.key.get pkField).bind BatchProcessor.deleteId).map .del := by
    simp only [SearchServer.operation, hupsert]
    simp [BatchProcessor.deleteOf, cdcEvent, hchange, RowChange.eventType, RowChange.data]
  rw [State.document, step_documents, hchange]
  by_cases hlets : row.lets .delete = true
  · rw [if_pos hlets, process_event hkeyed, KeyedLog.run_apply]
    simp only [SearchServer.operations, List.filterMap_cons, List.filterMap_nil, hop]
    cases hid : (a.batchPrimaryKey (indexName rt a row)).bind fun pkField =>
        (row.key.get pkField).bind BatchProcessor.deleteId with
    | none =>
      refine .inr ⟨rfl, ?_⟩
      intro hremoves
      cases hid.symm.trans hremoves.2
    | some id =>
      -- the id that is read off the key need not be the one the document was stored under
      by_cases heq : id = row.documentId
      · subst heq
        refine .inl ⟨?_, hlets, hid⟩
        simp [KeyedLog.lastOn, KeyedLog.Op.key, KeyedLog.Op.value]
      · refine .inr ⟨?_, ?_⟩
        · simp [KeyedLog.lastOn, KeyedLog.Op.key, heq]
          rfl
        · intro hremoves
          exact heq (Option.some.inj (hid.symm.trans hremoves.2))
  · rw [if_neg hlets]
    exact .inr ⟨rfl, fun hremoves => hlets hremoves.1⟩

theorem passes_of_lets {version : Fields} {change : RowChange}
    (hdata : change.data row.key = version) (h : row.lets change = true) : row.Passes version := by
  simp only [lets, Bool.and_eq_true, hdata] at h
  exact ⟨h.1.1, h.2⟩

/-- One change keeps the index consistent exactly when it meets the condition. -/
theorem consistent_step_iff (h : Consistent rt a row s) (hfits : Fits srv rt a row s e.change) :
    Consistent rt a row (step srv rt a row s e) ↔ Meets rt a row s e.change := by
  have hversion : (step srv rt a row s e).version = e.change.after := rfl
  unfold Consistent
  rw [hversion]
  cases hchange : e.change with
  | insert version =>
    rw [hchange] at hfits
    have hdocument := document_step_version (s := s) (.inl hchange) hfits.2
    refine iff_of_true ?_ trivial
    rw [hdocument]
    split
    · next hlets =>
      intro _
      rw [hchange] at hlets
      exact ⟨version, rfl, passes_of_lets rfl hlets⟩
    · intro hsome
      -- there was no row before, so there is no document either
      obtain ⟨v, hv, -⟩ := h hsome
      cases hfits.1.symm.trans hv
  | update version =>
    rw [hchange] at hfits
    have hdocument := document_step_version (s := s) (.inr hchange) hfits.2
    simp only [hdocument, RowChange.after, Option.some.injEq, exists_eq_left']
    unfold Meets
    split
    · next hlets =>
      rw [hchange] at hlets
      have hpasses : row.Passes version := passes_of_lets rfl hlets
      exact iff_of_true (fun _ => hpasses) fun _ => hpasses
    · exact Iff.rfl
  | delete =>
    unfold Meets
    rcases document_step_delete hchange with ⟨hgone, hremoves⟩ | ⟨hsame, hnot⟩
    · refine iff_of_true ?_ fun _ => hremoves
      intro hsome
      rw [hgone] at hsome
      cases hsome
    · rw [hsame]
      constructor
      · intro hconsistent hsome
        obtain ⟨version, hnone, -⟩ := hconsistent hsome
        cases hnone
      · intro hmeets hsome
        exact absurd (hmeets hsome) hnot

/-- **The index is what the filter says after every change exactly when every change meets the
condition** in the state it finds. -/
theorem consistent_iff (srv : SearchServer) (rt : Runtime) (a : MeilisearchAdapter)
    (row : FilteredRow) (s : State) (events : List RowEvent) (h : Consistent rt a row s)
    (hvalid : Valid srv rt a row s events) :
    (∀ pre, pre <+: events → Consistent rt a row (run srv rt a row s pre)) ↔
      ∀ pre e, pre ++ [e] <+: events → Meets rt a row (run srv rt a row s pre) e.change := by
  -- along the history: each prefix is the one before it and one change
  induction events generalizing s with
  | nil =>
    refine iff_of_true ?_ ?_
    · intro pre hpre
      rw [List.prefix_nil.mp hpre]
      exact h
    · intro pre e hpre
      have hnil := List.prefix_nil.mp hpre
      simp at hnil
  | cons e events ih =>
    obtain ⟨hfits, hrest⟩ := hvalid
    have hstep := consistent_step_iff h hfits
    constructor
    · intro hall pre e' hpre
      have hone : Consistent rt a row (step srv rt a row s e) :=
        hall [e] (by simp)
      cases pre with
      | nil =>
        obtain ⟨rfl, -⟩ := List.cons_prefix_cons.mp hpre
        exact hstep.mp hone
      | cons e'' pre =>
        obtain ⟨rfl, htail⟩ := List.cons_prefix_cons.mp hpre
        refine (ih (step srv rt a row s e'') hone hrest).mp ?_ pre e' htail
        intro pre hpre
        exact hall (e'' :: pre) (List.cons_prefix_cons.mpr ⟨rfl, hpre⟩)
    · intro hall pre hpre
      cases pre with
      | nil => exact h
      | cons e'' pre =>
        obtain ⟨rfl, htail⟩ := List.cons_prefix_cons.mp hpre
        have hone : Consistent rt a row (step srv rt a row s e'') :=
          hstep.mpr (hall [] e'' (by simp))
        refine (ih (step srv rt a row s e'') hone hrest).mpr ?_ pre htail
        intro pre e' hpre
        exact hall (e'' :: pre) e' (List.cons_prefix_cons.mpr ⟨rfl, hpre⟩)

/-! ### A document that outlives its row -/

/-- A row of `books`, of which the index holds what the conditions let through. -/
def bookRow (conditions : List Condition) : FilteredRow where
  filter := ⟨⟨⟨none, none⟩, none, some conditions⟩⟩
  table := "books"
  schema := "public"
  key := [("id", .number (.ofNat 1))]
  documentId := "1"

def bookVersion (status : String) : Fields :=
  [("id", .number (.ofNat 1)), ("status", .string status)]

def noBook : State := ⟨none, fun _ _ => none⟩

theorem noBook_consistent (rt : Runtime) (a : MeilisearchAdapter) (row : FilteredRow) :
    Consistent rt a row noBook := by
  intro h
  cases h

/-- The book is inserted and deleted again. -/
def insertedAndDeleted : List RowEvent :=
  [⟨.insert (bookVersion "active"), none⟩, ⟨.delete, none⟩]

theorem insertedAndDeleted_valid (conditions : List Condition) :
    Valid idServer ⟨id, id, ""⟩ idAdapter (bookRow conditions) noBook insertedAndDeleted := by
  refine ⟨⟨rfl, ?_⟩, ?_, trivial⟩
  · show ((Value.object (bookVersion "active")).get "id").bind BatchProcessor.deleteId = some "1"
    decide
  · intro h
    cases h

/-- Only active books are let through, so the deletion is not. -/
theorem document_not_always_consistent :
    ¬ ∀ (srv : SearchServer) (rt : Runtime) (a : MeilisearchAdapter) (row : FilteredRow) (s : State)
      (events : List RowEvent), Consistent rt a row s → Valid srv rt a row s events →
      Consistent rt a row (run srv rt a row s events) := by
  intro h
  have hend := h idServer ⟨id, id, ""⟩ idAdapter
    (bookRow [.equals "status" (.string "active")]) noBook insertedAndDeleted
    (noBook_consistent _ _ _) (insertedAndDeleted_valid _)
  obtain ⟨version, hnone, -⟩ := hend (by decide)
  cases hnone

/-- The rule at work on a filter that lets the same deletion through. -/
theorem consistent_iff_books :
    (∀ pre, pre <+: insertedAndDeleted →
      Consistent ⟨id, id, ""⟩ idAdapter (bookRow [.notEquals "status" (.string "lost")])
        (run idServer ⟨id, id, ""⟩ idAdapter (bookRow [.notEquals "status" (.string "lost")]) noBook
          pre)) ↔
      ∀ pre e, pre ++ [e] <+: insertedAndDeleted →
        Meets ⟨id, id, ""⟩ idAdapter (bookRow [.notEquals "status" (.string "lost")])
          (run idServer ⟨id, id, ""⟩ idAdapter (bookRow [.notEquals "status" (.string "lost")])
            noBook pre) e.change :=
  consistent_iff idServer ⟨id, id, ""⟩ idAdapter (bookRow [.notEquals "status" (.string "lost")])
    noBook insertedAndDeleted (noBook_consistent _ _ _) (insertedAndDeleted_valid _)

end FilteredRow

end MeiliBridge
