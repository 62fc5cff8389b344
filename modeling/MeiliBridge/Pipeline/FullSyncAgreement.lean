import MeiliBridge.Destination.BatchProcessor
import MeiliBridge.Pipeline.SingleEvent

/-!
# A row's full sync against its creation

`perform_full_sync` hands every row to `process_single_event` as a `FullSync` event under the name
the task is configured with; the decoder's create event of the row goes through the same stages
under the bare name of its table. The stages have an arm for each, and the arms differ: only the
create event meets the list of event types and the global transforms, only the full-sync record can
be hidden by the soft-delete handler, and every lookup is made under the event's own name.

`fullSync_agrees_iff` puts the arms side by side.
-/

set_option autoImplicit false

namespace MeiliBridge

/-- What becomes of an event whose processing returns: nothing, or its document. -/
def Outcome.document (o : Outcome) : Option (Option Value) :=
  o.returned.map fun e => e.bind BatchProcessor.upsertOf

/-- Both return, and with the same document or both with none. -/
def Outcome.SameDocument (o o' : Outcome) : Prop :=
  o.document = o'.document ∧ o.document.isSome = true

instance (o o' : Outcome) : Decidable (o.SameDocument o') := inferInstanceAs (Decidable (_ ∧ _))

namespace Stages

/-! ## What the stages are set to do -/

/-- The filter's tests of a record that are the same for both kinds of event. -/
def admits (st : Stages) (table : String) (data : Fields) : Bool :=
  st.filter.all fun f => f.isTableAllowed table && f.checkConditions data

def allowsCreate (st : Stages) : Bool := st.filter.all fun f => f.isEventTypeAllowed .create

def hides (st : Stages) (data : Fields) : Bool :=
  st.softDeleteHandler.any fun sd => sd.hidesRecord (.object data)

/-! ## The two kinds of event -/

/-- No document comes of the full-sync record: the filter stops it, a field transform fails on it,
or the soft-delete handler hides it. -/
def FullSyncEnds (rt : Runtime) (st : Stages) (table : String) (row : Fields) : Prop :=
  st.admits table row = false ∨ (∃ e, st.fieldsUnder rt table row = .error (.err e)) ∨
    ∃ data, st.fieldsUnder rt table row = .ok data ∧ st.hides (st.mapped table data) = true

/-- No document comes of the create event: the filter stops it or a field transform fails on it. -/
def CreateEnds (rt : Runtime) (st : Stages) (e : CdcEvent) : Prop :=
  st.admits e.table e.data = false ∨ st.allowsCreate = false ∨
    ∃ err, st.fieldsUnder rt e.table e.data = .error (.err err)

/-- The global transforms, and the settings under the other name, make no difference. -/
def RewrittenAlike (rt : Runtime) (st : Stages) (table : String) (row : Fields) (e : CdcEvent) :
    Prop :=
  ∃ data data', st.fieldsUnder rt table row = .ok data ∧
    st.fieldsUnder rt e.table e.data = .ok data' ∧
    st.mapped table data = st.mapped e.table (st.globals rt data')

theorem applyFilter_fullSync (st : Stages) (table : String) (row : Fields) :
    st.applyFilter (.fullSync table (.object row)) =
      if st.admits table row then .kept (.fullSync table (.object row)) else .dropped := by
  cases hf : st.filter with
  | none => simp [applyFilter, admits, hf]
  | some f =>
    rw [applyFilter_of_shouldProcess hf rfl]
    simp [admits, hf, EventFilter.checkRecord, Value.asObject]

theorem applyFilter_create (st : Stages) {e : CdcEvent} (he : e.eventType = .create) :
    st.applyFilter (.cdc e) =
      if st.admits e.table e.data && st.allowsCreate then .kept (.cdc e) else .dropped := by
  cases hf : st.filter with
  | none => simp [applyFilter, admits, allowsCreate, hf]
  | some f =>
    rw [applyFilter_of_shouldProcess hf rfl]
    simp only [admits, allowsCreate, hf, he, Option.all_some]
    rw [Bool.and_right_comm]

theorem applySoftDelete_record (st : Stages) (table : String) (data : Fields) :
    st.applySoftDelete (.fullSync table (.object data)) =
      if st.hides data then .dropped else .kept (.fullSync table (.object data)) := by
  cases h : st.softDeleteHandler with
  | none => simp [applySoftDelete, hides, h]
  | some sd => simp [applySoftDelete_fullSync h, hides, h]

theorem applySoftDelete_create (st : Stages) {e : CdcEvent} (he : e.eventType = .create) :
    st.applySoftDelete (.cdc e) = .kept (.cdc e) := by
  cases h : st.softDeleteHandler with
  | none => simp [applySoftDelete, h]
  | some sd => simp [applySoftDelete_cdc h, SoftDeleteHandler.deletesUpdate, he]

/-! ## What becomes of each -/

variable {rt : Runtime} {st : Stages} {table : String} {row data : Fields} {e : CdcEvent}

theorem fullSync_stopped (h : st.admits table row = false) :
    st.processSingleEvent rt (.fullSync table (.object row)) = .dropped := by
  rw [processSingleEvent, applyFilter_fullSync, h]
  rfl

theorem fullSync_faulted {fault : Fault} (h : st.admits table row = true)
    (hfields : st.fieldsUnder rt table row = .error fault) :
    st.processSingleEvent rt (.fullSync table (.object row)) =
      .ofFault fault := by
  rw [processSingleEvent, applyFilter_fullSync, h, if_pos rfl, Outcome.andThen_kept,
    applyTransformer_fullSync, hfields]
  exact Outcome.ofFault_andThen fault _

theorem fullSync_rewritten (h : st.admits table row = true)
    (hfields : st.fieldsUnder rt table row = .ok data) :
    (st.processSingleEvent rt (.fullSync table (.object row))).document =
      some (if st.hides (st.mapped table data) then none
        else some (.object (st.mapped table data))) := by
  rw [processSingleEvent, applyFilter_fullSync, h, if_pos rfl, Outcome.andThen_kept,
    applyTransformer_fullSync, hfields]
  simp only [Outcome.andThen_kept, applyMapper_fullSync, applySoftDelete_record]
  split <;> rfl

theorem create_stopped (he : e.eventType = .create)
    (h : (st.admits e.table e.data && st.allowsCreate) = false) :
    st.processSingleEvent rt (.cdc e) = .dropped := by
  rw [processSingleEvent, applyFilter_create st he, h]
  rfl

theorem create_faulted {fault : Fault} (he : e.eventType = .create)
    (h : (st.admits e.table e.data && st.allowsCreate) = true)
    (hfields : st.fieldsUnder rt e.table e.data = .error fault) :
    st.processSingleEvent rt (.cdc e) =
      .ofFault fault := by
  rw [processSingleEvent, applyFilter_create st he, h, if_pos rfl, Outcome.andThen_kept,
    applyTransformer_cdc, hfields]
  exact Outcome.ofFault_andThen fault _

theorem create_rewritten (he : e.eventType = .create)
    (h : (st.admits e.table e.data && st.allowsCreate) = true)
    (hfields : st.fieldsUnder rt e.table e.data = .ok data) :
    (st.processSingleEvent rt (.cdc e)).document =
      some (some (.object (st.mapped e.table (st.globals rt data)))) := by
  rw [processSingleEvent, applyFilter_create st he, h, if_pos rfl, Outcome.andThen_kept,
    applyTransformer_cdc, hfields]
  simp only [Outcome.andThen_kept, applyMapper_cdc]
  rw [st.applySoftDelete_create (by exact he)]
  simp [Outcome.document, Outcome.returned, BatchProcessor.upsertOf, he]

/-- How the full-sync record ends. -/
inductive FullSyncResult (rt : Runtime) (st : Stages) (table : String) (row : Fields) : Prop
  | ends (h : st.FullSyncEnds rt table row)
      (hnone : (st.processSingleEvent rt (.fullSync table (.object row))).document = some none)
  | panics (h : ¬ st.FullSyncEnds rt table row)
      (hfields : st.fieldsUnder rt table row = .error .panic)
      (hnone : (st.processSingleEvent rt (.fullSync table (.object row))).document = none)
  | keeps (data : Fields) (h : ¬ st.FullSyncEnds rt table row)
      (hfields : st.fieldsUnder rt table row = .ok data)
      (hsome : (st.processSingleEvent rt (.fullSync table (.object row))).document =
        some (some (.object (st.mapped table data))))

theorem fullSync_result (rt : Runtime) (st : Stages) (table : String) (row : Fields) :
    st.FullSyncResult rt table row := by
  cases hadmits : st.admits table row with
  | false =>
    refine .ends (.inl hadmits) ?_
    rw [fullSync_stopped hadmits]
    rfl
  | true =>
    cases hfields : st.fieldsUnder rt table row with
    | error fault =>
      have hfaulted := fullSync_faulted hadmits hfields
      cases fault with
      | err err =>
        refine .ends (.inr (.inl ⟨err, hfields⟩)) ?_
        rw [hfaulted]
        rfl
      | panic =>
        refine .panics ?_ hfields ?_
        · simp [FullSyncEnds, hadmits, hfields]
        · rw [hfaulted]
          rfl
    | ok data =>
      have hdocument := fullSync_rewritten hadmits hfields
      cases hhides : st.hides (st.mapped table data) with
      | true =>
        refine .ends (.inr (.inr ⟨data, hfields, hhides⟩)) ?_
        rw [hdocument, hhides]
        rfl
      | false =>
        refine .keeps data ?_ hfields ?_
        · simp [FullSyncEnds, hadmits, hfields, hhides]
        · rw [hdocument, hhides]
          rfl

/-- How the create event ends. -/
inductive CreateResult (rt : Runtime) (st : Stages) (e : CdcEvent) : Prop
  | ends (h : st.CreateEnds rt e)
      (hnone : (st.processSingleEvent rt (.cdc e)).document = some none)
  | panics (h : ¬ st.CreateEnds rt e) (hfields : st.fieldsUnder rt e.table e.data = .error .panic)
      (hnone : (st.processSingleEvent rt (.cdc e)).document = none)
  | keeps (data : Fields) (h : ¬ st.CreateEnds rt e)
      (hfields : st.fieldsUnder rt e.table e.data = .ok data)
      (hsome : (st.processSingleEvent rt (.cdc e)).document =
        some (some (.object (st.mapped e.table (st.globals rt data)))))

theorem create_result (rt : Runtime) (st : Stages) (he : e.eventType = .create) :
    st.CreateResult rt e := by
  cases hadmits : st.admits e.table e.data && st.allowsCreate with
  | false =>
    refine .ends ?_ ?_
    · rcases Bool.and_eq_false_iff.mp hadmits with h | h
      · exact .inl h
      · exact .inr (.inl h)
    · rw [create_stopped he hadmits]
      rfl
  | true =>
    obtain ⟨hrecord, hcreate⟩ := Bool.and_eq_true_iff.mp hadmits
    cases hfields : st.fieldsUnder rt e.table e.data with
    | error fault =>
      have hfaulted := create_faulted he hadmits hfields
      cases fault with
      | err err =>
        refine .ends (.inr (.inr ⟨err, hfields⟩)) ?_
        rw [hfaulted]
        rfl
      | panic =>
        refine .panics ?_ hfields ?_
        · simp [CreateEnds, hrecord, hcreate, hfields]
        · rw [hfaulted]
          rfl
    | ok data =>
      refine .keeps data ?_ hfields (create_rewritten he hadmits hfields)
      simp [CreateEnds, hrecord, hcreate, hfields]

theorem processSingleEvent_clock (hclock : ∀ t, st.transformer = some t → t.NoTimestamp)
    (now : String) (he : e.eventType = .create) :
    (st.processSingleEvent { rt with utcNow := now } (.cdc e)).document =
      (st.processSingleEvent rt (.cdc e)).document := by
  have hglobals : ∀ data, st.globals { rt with utcNow := now } data = st.globals rt data := by
    intro data
    unfold globals
    cases ht : st.transformer with
    | none => rfl
    | some t => exact EventTransformer.applyGlobals_clock (hclock t ht) rt now data
  have htransformer : st.applyTransformer { rt with utcNow := now } (.cdc e) =
      st.applyTransformer rt (.cdc e) := by
    rw [applyTransformer_cdc, applyTransformer_cdc]
    simp only [hglobals]
    rfl
  rw [processSingleEvent, processSingleEvent, applyFilter_create st he]
  split
  · rw [Outcome.andThen_kept, Outcome.andThen_kept, htransformer]
  · rfl

end Stages

/-- **A full sync and the create event agree on a row exactly when** both end without a document, or
neither does and the global transforms and the settings under the event's other name make no
difference to it. The full sync may run at any time before or after the event. -/
theorem fullSync_agrees_iff (rt : Runtime) (now : String) (st : Stages) (table : String)
    (row : Fields) (e : CdcEvent) (he : e.eventType = .create)
    (hclock : ∀ t, st.transformer = some t → t.NoTimestamp) :
    (st.processSingleEvent rt (.fullSync table (.object row))).SameDocument
        (st.processSingleEvent { rt with utcNow := now } (.cdc e)) ↔
      (st.FullSyncEnds rt table row ∧ st.CreateEnds rt e) ∨
        (¬ st.FullSyncEnds rt table row ∧ ¬ st.CreateEnds rt e ∧
          st.RewrittenAlike rt table row e) := by
  unfold Outcome.SameDocument
  rw [Stages.processSingleEvent_clock hclock now he]
  cases st.fullSync_result rt table row with
  | ends h hnone =>
    rw [hnone]
    cases st.create_result rt he with
    | ends h' hnone' => simp [h, h', hnone']
    | panics h' hfields' hnone' => simp [h, h', hnone']
    | keeps data' h' hfields' hsome' => simp [h, h', hsome']
  | panics h hfields hnone => simp [h, hnone, Stages.RewrittenAlike, hfields]
  | keeps data h hfields hsome =>
    rw [hsome]
    cases st.create_result rt he with
    | ends h' hnone' => simp [h, h', hnone']
    | panics h' hfields' hnone' => simp [h, h', hnone', Stages.RewrittenAlike, hfields']
    | keeps data' h' hfields' hsome' =>
      simp [h, h', hsome', Stages.RewrittenAlike, hfields, hfields']

/-- A task without global transforms that lets create events through, has no soft-delete handler and
is configured with the bare name of its table. -/
structure Stages.Plain (st : Stages) : Prop where
  create : st.allowsCreate = true
  noGlobals : ∀ t, st.transformer = some t → t.config.globalTransforms.getD [] = []
  noHandler : st.softDeleteHandler = none

/-- Such a task treats every row alike, unless a conversion to a number panics. -/
theorem fullSync_agrees_of_plain {rt : Runtime} {st : Stages} {e : CdcEvent} (h : st.Plain)
    (he : e.eventType = .create) (hpanic : st.fieldsUnder rt e.table e.data ≠ .error .panic) :
    (st.processSingleEvent rt (.fullSync e.table (.object e.data))).SameDocument
      (st.processSingleEvent rt (.cdc e)) := by
  -- without global transforms neither arm reads the clock
  have hclock : ∀ t, st.transformer = some t → t.NoTimestamp := by
    intro t ht transforms hsome field
    have hempty := h.noGlobals t ht
    rw [hsome, Option.getD_some] at hempty
    rw [hempty]
    exact List.not_mem_nil
  have hglobals : ∀ data, st.globals rt data = data := by
    intro data
    unfold Stages.globals
    cases ht : st.transformer with
    | none => rfl
    | some t =>
      simp only [EventTransformer.applyGlobals, EventTransformer.applyGlobalTransforms,
        h.noGlobals t ht]
      rfl
  have hhides : ∀ data, st.hides data = false := by
    intro data
    rw [Stages.hides, h.noHandler]
    rfl
  refine (fullSync_agrees_iff rt rt.utcNow st e.table e.data e he hclock).mpr ?_
  cases hadmits : st.admits e.table e.data with
  | false => exact .inl ⟨.inl hadmits, .inl hadmits⟩
  | true =>
    cases hfields : st.fieldsUnder rt e.table e.data with
    | error fault =>
      cases fault with
      | err err => exact .inl ⟨.inr (.inl ⟨err, hfields⟩), .inr (.inr ⟨err, hfields⟩)⟩
      | panic => exact absurd hfields hpanic
    | ok data =>
      refine .inr ⟨?_, ?_, data, data, hfields, hfields, by rw [hglobals]⟩
      · simp [Stages.FullSyncEnds, hadmits, hfields, hhides]
      · simp [Stages.CreateEnds, hadmits, hfields, h.create]

/-! ### A global transform -/

/-- A task that adds a field to every document. -/
def globalStages : Stages where
  filter := none
  transformer := some ⟨⟨∅, some [.addField "kind" (.string "book")]⟩⟩
  mapper := none
  softDeleteHandler := none

/-- The same task with a mapping that leaves the added field out. -/
def excludingStages : Stages where
  filter := none
  transformer := some ⟨⟨∅, some [.addField "kind" (.string "book")]⟩⟩
  mapper := some ⟨{
    tables := AList.insert "books" ⟨none, some (AList.insert "id" (.simple "id") ∅)⟩ ∅
    unmappedFieldsStrategy := "exclude"
    unmappedFieldsPrefix := none }⟩
  softDeleteHandler := none

/-- The creation of a row of `books`. -/
def createdBook : CdcEvent where
  eventType := .create
  table := "books"
  schema := "public"
  data := [("id", .number (.ofNat 1))]
  position := some (.postgreSQL "0/10")

theorem noTimestamp_addField :
    EventTransformer.NoTimestamp ⟨⟨∅, some [.addField "kind" (.string "book")]⟩⟩ := by
  intro transforms h field
  obtain rfl := Option.some.inj h
  simp

theorem fullSync_disagrees : ¬ ∀ (rt : Runtime) (st : Stages) (e : CdcEvent),
    e.eventType = .create → (∀ t, st.transformer = some t → t.NoTimestamp) →
      (st.processSingleEvent rt (.fullSync e.table (.object e.data))).SameDocument
        (st.processSingleEvent rt (.cdc e)) := by
  intro h
  have hbook := h ⟨id, id, ""⟩ globalStages createdBook rfl ?_
  · exact absurd hbook (by decide)
  · intro t ht
    obtain rfl := Option.some.inj ht
    exact noTimestamp_addField

/-- The rule at work on a row whose added field the mapping leaves out again. -/
theorem fullSync_agrees_iff_books :
    (excludingStages.processSingleEvent ⟨id, id, ""⟩
      (.fullSync "books" (.object [("id", .number (.ofNat 1))]))).SameDocument
      (excludingStages.processSingleEvent ⟨id, id, "2024"⟩ (.cdc createdBook)) := by
  refine (fullSync_agrees_iff ⟨id, id, ""⟩ "2024" excludingStages "books" _ createdBook rfl ?_).mpr
    (.inr ⟨?_, ?_, _, _, rfl, rfl, ?_⟩)
  · intro t ht
    obtain rfl := Option.some.inj ht
    exact noTimestamp_addField
  · rintro (h | ⟨err, h⟩ | ⟨data, -, h⟩) <;> cases h
  · rintro (h | h | ⟨err, h⟩) <;> cases h
  · decide

end MeiliBridge
