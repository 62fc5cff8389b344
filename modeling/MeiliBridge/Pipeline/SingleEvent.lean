import MeiliBridge.Pipeline.Filter
import MeiliBridge.Pipeline.Transformer
import MeiliBridge.Pipeline.Mapper
import MeiliBridge.Pipeline.SoftDelete

/-!
# One event through the four stages

`process_single_event` exists twice. The orchestrator's copy runs the soft-delete handler last, on
the rewritten event; the copy of the parallel processor runs it before the transformer and the
mapper. Everything but that order is shared, so both are written over the same four stages.

The two copies return an `Option<Event>`. An `Outcome` says in addition why there is no event: a
stage dropped it, or a stage failed and the error was only logged.
-/

set_option autoImplicit false

namespace MeiliBridge

/-- The optional stages a task hands to `process_single_event`. -/
structure Stages where
  filter : Option EventFilter
  transformer : Option EventTransformer
  mapper : Option FieldMapper
  softDeleteHandler : Option SoftDeleteHandler

/-- How the processing of one event ends. -/
inductive Outcome where
  | kept (e : Event)
  | dropped
  | failed (e : MeiliBridgeError)
  | panicked
  deriving DecidableEq

namespace Outcome

/-- The next stage, on the event this one kept. -/
def andThen : Outcome → (Event → Outcome) → Outcome
  | .kept e, k => k e
  | .dropped, _ => .dropped
  | .failed err, _ => .failed err
  | .panicked, _ => .panicked

/-- The `Option<Event>` returned, if the stages return at all. -/
def returned : Outcome → Option (Option Event)
  | .kept e => some (some e)
  | .dropped => some none
  | .failed _ => some none
  | .panicked => none

/-- Both return, and the same event or both none. -/
def Agree (o o' : Outcome) : Prop := o.returned = o'.returned ∧ o.returned.isSome = true

instance (o o' : Outcome) : Decidable (Agree o o') := inferInstanceAs (Decidable (_ ∧ _))

/-- How a stage that answers with an error ends. -/
def ofFault : Fault → Outcome
  | .err e => .failed e
  | .panic => .panicked

theorem ofFault_andThen (fault : Fault) (k : Event → Outcome) :
    (ofFault fault).andThen k = ofFault fault := by
  cases fault <;> rfl

@[simp] theorem andThen_kept (e : Event) (k : Event → Outcome) : (kept e).andThen k = k e := rfl

@[simp] theorem andThen_dropped (k : Event → Outcome) : dropped.andThen k = dropped := rfl

theorem andThen_eq_kept {o : Outcome} {k : Event → Outcome} {d : Event} :
    o.andThen k = .kept d ↔ ∃ e, o = .kept e ∧ k e = .kept d := by
  cases o <;> simp [andThen]

theorem agree_self_iff {o : Outcome} : Agree o o ↔ o ≠ .panicked := by
  cases o <;> simp [Agree, returned]

/-- A stage that comes last is not noticed exactly when it keeps what it gets. -/
theorem agree_andThen_self_iff {o : Outcome} {k : Event → Outcome} :
    Agree (o.andThen k) o ↔ o ≠ .panicked ∧ ∀ e, o = .kept e → k e = .kept e := by
  cases o with
  | kept e =>
    simp only [andThen, Agree, returned, ne_eq, reduceCtorEq, not_false_eq_true, true_and,
      kept.injEq, forall_eq']
    cases k e <;> simp
  | _ => simp [andThen, Agree, returned]

theorem agree_andThen_kept_iff {o : Outcome} {k : Event → Outcome} {d : Event} :
    Agree (o.andThen k) (.kept d) ↔ ∃ e, o = .kept e ∧ k e = .kept d := by
  cases o with
  | kept e =>
    simp only [andThen, Agree, returned, kept.injEq, exists_eq_left']
    cases k e <;> simp
  | _ => simp [andThen, Agree, returned]

theorem agree_andThen_dropped_iff {o : Outcome} {k : Event → Outcome} :
    Agree (o.andThen k) .dropped ↔ o ≠ .panicked ∧ ∀ e, o = .kept e →
      (k e).returned = some none := by
  cases o with
  | kept e => simp only [andThen, Agree, returned, kept.injEq]; aesop
  | _ => simp [andThen, Agree, returned]

end Outcome

namespace Stages

/-! ## The stages -/

def applyFilter (st : Stages) (event : Event) : Outcome :=
  match st.filter with
  | none => .kept event
  | some f =>
    match f.shouldProcess event with
    | .ok true => .kept event
    | .ok false => .dropped
    | .error e => .failed e

def applyTransformer (rt : Runtime) (st : Stages) (event : Event) : Outcome :=
  match st.transformer with
  | none => .kept event
  | some t =>
    match t.transform rt event with
    | .ok (some transformed) => .kept transformed
    | .ok none => .dropped
    | .error (.err e) => .failed e
    | .error .panic => .panicked

def applyMapper (st : Stages) (event : Event) : Outcome :=
  match st.mapper with
  | none => .kept event
  | some m =>
    match m.mapEvent event with
    | .ok mapped => .kept mapped
    | .error e => .failed e

def applySoftDelete (st : Stages) (event : Event) : Outcome :=
  match st.softDeleteHandler with
  | none => .kept event
  | some sd =>
    match sd.transformEvent event with
    | some transformed => .kept transformed
    | none => .dropped

/-- `PipelineOrchestrator::process_single_event` -/
def processSingleEvent (rt : Runtime) (st : Stages) (event : Event) : Outcome :=
  (st.applyFilter event).andThen fun e =>
    (st.applyTransformer rt e).andThen fun e =>
      (st.applyMapper e).andThen st.applySoftDelete

end Stages

/-- `ParallelTableProcessor::process_single_event` -/
def ParallelTableProcessor.processSingleEvent (rt : Runtime) (st : Stages) (event : Event) :
    Outcome :=
  (st.applyFilter event).andThen fun e =>
    (st.applySoftDelete e).andThen fun e =>
      (st.applyTransformer rt e).andThen st.applyMapper

namespace Stages

/-! ## What the rewriting stages can do to an event -/

/-- The transformer, then the mapper. -/
def rewrite (rt : Runtime) (st : Stages) (event : Event) : Outcome :=
  (st.applyTransformer rt event).andThen st.applyMapper

theorem applyTransformer_rewritten {rt : Runtime} {st : Stages} {e e' : Event}
    (h : st.applyTransformer rt e = .kept e') : e.Rewritten e' := by
  unfold applyTransformer at h
  split at h
  · cases h
    exact .refl e
  · split at h <;> cases h
    next ht => exact EventTransformer.transform_rewritten ht

theorem applyMapper_kept (st : Stages) (e : Event) :
    ∃ e', st.applyMapper e = .kept e' ∧ e.Rewritten e' := by
  unfold applyMapper
  split
  · exact ⟨e, rfl, .refl e⟩
  · next m _ =>
    obtain ⟨e', he, hr⟩ := m.mapEvent_ok e
    exact ⟨e', by rw [he], hr⟩

theorem rewrite_rewritten {rt : Runtime} {st : Stages} {e e' : Event}
    (h : st.rewrite rt e = .kept e') : e.Rewritten e' := by
  unfold rewrite at h
  cases ht : st.applyTransformer rt e with
  | kept e₁ =>
    obtain ⟨e₂, hm, hr⟩ := st.applyMapper_kept e₁
    rw [ht, Outcome.andThen_kept, hm] at h
    cases h
    exact (applyTransformer_rewritten ht).trans hr
  | _ => rw [ht] at h; cases h

/-- Events other than CDC events and full-sync records pass through both stages as they are. -/
theorem rewrite_of_not_isRecord {rt : Runtime} {st : Stages} {e : Event}
    (h : e.isRecord = false) : st.rewrite rt e = .kept e := by
  unfold rewrite applyTransformer applyMapper
  cases e with
  | cdc c => cases h
  | fullSync table data => cases h
  | _ => cases st.transformer <;> cases st.mapper <;> rfl

theorem applyFilter_of_shouldProcess {st : Stages} {f : EventFilter} {event : Event} {b : Bool}
    (hf : st.filter = some f) (h : f.shouldProcess event = .ok b) :
    st.applyFilter event = if b then .kept event else .dropped := by
  simp only [applyFilter, hf, h]
  cases b <;> rfl

theorem applyFilter_cases (st : Stages) (e : Event) :
    st.applyFilter e = .kept e ∨ st.applyFilter e = .dropped := by
  unfold applyFilter
  split
  · exact Or.inl rfl
  · next f _ =>
    have hok : ∃ b, f.shouldProcess e = .ok b := by cases e <;> exact ⟨_, rfl⟩
    obtain ⟨b, hb⟩ := hok
    cases b <;> simp [hb]

/-! ### Stage by stage -/

/-- The field transforms of the table. -/
def fieldsUnder (rt : Runtime) (st : Stages) (table : String) (data : Fields) :
    Except Fault Fields :=
  match st.transformer with
  | none => .ok data
  | some t => t.applyFieldConfig rt table data

def globals (rt : Runtime) (st : Stages) (data : Fields) : Fields :=
  match st.transformer with
  | none => data
  | some t => t.applyGlobals rt data

/-- The mapping of the table. -/
def mapped (st : Stages) (table : String) (data : Fields) : Fields :=
  match st.mapper with
  | none => data
  | some m => m.mappedUnder table data

/-- The name a table goes by after the mapper. -/
def renamed (st : Stages) (table : String) : String :=
  match st.mapper with
  | none => table
  | some m => m.renamed table

theorem applyTransformer_fullSync (rt : Runtime) (st : Stages) (table : String) (row : Fields) :
    st.applyTransformer rt (.fullSync table (.object row)) =
      match st.fieldsUnder rt table row with
      | .ok data => .kept (.fullSync table (.object data))
      | .error fault => .ofFault fault := by
  unfold applyTransformer fieldsUnder
  cases st.transformer with
  | none => rfl
  | some t =>
    simp only [EventTransformer.transform]
    cases EventTransformer.applyFieldConfig rt t table row with
    | ok data => rfl
    | error fault => cases fault <;> rfl

theorem applyTransformer_cdc (rt : Runtime) (st : Stages) (e : CdcEvent) :
    st.applyTransformer rt (.cdc e) =
      match st.fieldsUnder rt e.table e.data with
      | .ok data => .kept (.cdc { e with data := st.globals rt data })
      | .error fault => .ofFault fault := by
  unfold applyTransformer fieldsUnder globals
  cases st.transformer with
  | none => rfl
  | some t =>
    simp only [EventTransformer.transform]
    cases EventTransformer.applyFieldConfig rt t e.table e.data with
    | ok data =>
      have hglobals := EventTransformer.applyGlobalTransforms_eq rt t data
      show (match (do
        let data ← EventTransformer.applyGlobalTransforms rt t data
        Except.ok (some (Event.cdc { e with data }))) with
        | .ok (some transformed) => _ | .ok none => _
        | .error (.err e) => _ | .error .panic => _) = _
      rw [hglobals]
      rfl
    | error fault => cases fault <;> rfl

theorem applyMapper_fullSync (st : Stages) (table : String) (data : Fields) :
    st.applyMapper (.fullSync table (.object data)) =
      .kept (.fullSync (st.renamed table) (.object (st.mapped table data))) := by
  unfold applyMapper mapped renamed
  cases st.mapper with
  | none => rfl
  | some m => simp only [m.mapEvent_fullSync table data]

theorem applyMapper_cdc (st : Stages) (e : CdcEvent) :
    st.applyMapper (.cdc e) =
      .kept (.cdc { e with table := st.renamed e.table, data := st.mapped e.table e.data }) := by
  unfold applyMapper mapped renamed
  cases st.mapper with
  | none => rfl
  | some m => simp only [m.mapEvent_cdc e]

/-- The rewriting stages keep all of a CDC event but the name of the table and the data. -/
theorem rewrite_cdc_kept {rt : Runtime} {st : Stages} {e : CdcEvent} {e' : Event}
    (h : st.rewrite rt (.cdc e) = .kept e') :
    ∃ data, e' = .cdc { e with table := st.renamed e.table, data } := by
  rw [rewrite, applyTransformer_cdc] at h
  cases hfields : st.fieldsUnder rt e.table e.data with
  | ok data =>
    rw [hfields] at h
    simp only [Outcome.andThen_kept, applyMapper_cdc] at h
    obtain rfl := Outcome.kept.inj h
    exact ⟨_, rfl⟩
  | error fault =>
    rw [hfields] at h
    cases fault <;> cases h

/-! ## When the two orders agree -/

/-- The handler's test comes out the same before and after the rewriting stages. A CDC update it
turns into a `Delete` must moreover leave these stages as it entered them, because that `Delete`
keeps the table and the data it is made from. -/
def SoftDeleteStable (rt : Runtime) (st : Stages) (sd : SoftDeleteHandler) : Event → Prop
  | .cdc e =>
    if sd.deletesUpdate e then st.rewrite rt (.cdc e) = .kept (.cdc e)
    else ∀ e', st.rewrite rt (.cdc e) = .kept (.cdc e') → sd.deletesUpdate e' = false
  | .fullSync table data =>
    ∀ table' data', st.rewrite rt (.fullSync table data) = .kept (.fullSync table' data') →
      sd.hidesRecord data' = sd.hidesRecord data
  | _ => True

theorem processSingleEvent_eq (rt : Runtime) (st : Stages) (e : Event) :
    st.processSingleEvent rt e =
      (st.applyFilter e).andThen fun e => (st.rewrite rt e).andThen st.applySoftDelete := by
  unfold processSingleEvent rewrite
  congr 1
  funext e
  cases st.applyTransformer rt e <;> rfl

theorem applySoftDelete_cdc {st : Stages} {sd : SoftDeleteHandler}
    (h : st.softDeleteHandler = some sd) (e : CdcEvent) :
    st.applySoftDelete (.cdc e) =
      if sd.deletesUpdate e then .kept (.delete e.table (.object e.data) e.position)
      else .kept (.cdc e) := by
  simp only [applySoftDelete, h, sd.transformEvent_cdc]
  by_cases hd : sd.deletesUpdate e = true <;> simp [hd]

theorem applySoftDelete_fullSync {st : Stages} {sd : SoftDeleteHandler}
    (h : st.softDeleteHandler = some sd) (table : String) (data : Value) :
    st.applySoftDelete (.fullSync table data) =
      if sd.hidesRecord data then .dropped else .kept (.fullSync table data) := by
  simp only [applySoftDelete, h, sd.transformEvent_fullSync]
  by_cases hd : sd.hidesRecord data = true <;> simp [hd]

/-- The two orders on an event the filter lets through. -/
def Commutes (rt : Runtime) (st : Stages) (e : Event) : Prop :=
  Outcome.Agree ((st.rewrite rt e).andThen st.applySoftDelete)
    ((st.applySoftDelete e).andThen (st.rewrite rt))

/-- Where the handler leaves the event alone, it must leave what the stages make of it alone. -/
theorem commutes_of_untouched {rt : Runtime} {st : Stages} {e : Event}
    (h : st.applySoftDelete e = .kept e) :
    st.Commutes rt e ↔
      st.rewrite rt e ≠ .panicked ∧
        ∀ e', st.rewrite rt e = .kept e' → st.applySoftDelete e' = .kept e' := by
  rw [Commutes, h, Outcome.andThen_kept]
  exact Outcome.agree_andThen_self_iff

theorem commutes_cdc_iff {rt : Runtime} {st : Stages} {sd : SoftDeleteHandler}
    (h : st.softDeleteHandler = some sd) (c : CdcEvent) :
    st.Commutes rt (.cdc c) ↔
      st.rewrite rt (.cdc c) ≠ .panicked ∧ st.SoftDeleteStable rt sd (.cdc c) := by
  have hsd := applySoftDelete_cdc h
  by_cases hd : sd.deletesUpdate c = true
  · have hc := hsd c
    rw [if_pos hd] at hc
    have hdelete : st.rewrite rt (.delete c.table (.object c.data) c.position) =
        .kept (.delete c.table (.object c.data) c.position) := rewrite_of_not_isRecord rfl
    rw [Commutes, hc, Outcome.andThen_kept, hdelete, Outcome.agree_andThen_kept_iff]
    simp only [SoftDeleteStable, hd, if_true]
    constructor
    · -- the stages' own event must become that very `Delete`, so it is `c` again
      rintro ⟨e', he, hk⟩
      cases e' with
      | cdc c' =>
        obtain ⟨table, data, rfl⟩ := rewrite_rewritten he
        rw [hsd] at hk
        split at hk
        · cases hk
          exact ⟨by simp [he], he⟩
        · cases hk
      | _ => cases rewrite_rewritten he
    · rintro ⟨-, he⟩
      exact ⟨_, he, hc⟩
  · rw [commutes_of_untouched (by rw [hsd, if_neg hd])]
    simp only [SoftDeleteStable, hd]
    refine and_congr_right fun _ => ⟨fun hk c' he => ?_, fun hk e' he => ?_⟩
    · have := hk _ he
      rw [hsd] at this
      split at this
      · cases this
      · next hd' => simpa using hd'
    · cases e' with
      | cdc c' => simp [hsd, hk c' he]
      | _ => cases rewrite_rewritten he

theorem commutes_fullSync_iff {rt : Runtime} {st : Stages} {sd : SoftDeleteHandler}
    (h : st.softDeleteHandler = some sd) (table : String) (data : Value) :
    st.Commutes rt (.fullSync table data) ↔
      st.rewrite rt (.fullSync table data) ≠ .panicked ∧
        st.SoftDeleteStable rt sd (.fullSync table data) := by
  have hsd := applySoftDelete_fullSync h
  by_cases hd : sd.hidesRecord data = true
  · rw [Commutes, hsd, if_pos hd, Outcome.andThen_dropped, Outcome.agree_andThen_dropped_iff]
    simp only [SoftDeleteStable, hd]
    refine and_congr_right fun _ => ⟨fun hk table' data' he => ?_, fun hk e' he => ?_⟩
    · have := hk _ he
      rw [hsd] at this
      by_contra hne
      simp [hne, Outcome.returned] at this
    · cases e' with
      | fullSync table' data' => simp [hsd, hk table' data' he, Outcome.returned]
      | _ => cases rewrite_rewritten he
  · rw [commutes_of_untouched (by rw [hsd, if_neg hd])]
    have hd' : sd.hidesRecord data = false := by simpa using hd
    simp only [SoftDeleteStable, hd']
    refine and_congr_right fun _ => ⟨fun hk table' data' he => ?_, fun hk e' he => ?_⟩
    · have := hk _ he
      rw [hsd] at this
      by_contra hne
      simp [hne] at this
    · cases e' with
      | fullSync table' data' => simp [hsd, hk table' data' he]
      | _ => cases rewrite_rewritten he

/-- An event the stages pass through reaches the handler as it is in both orders. -/
theorem commutes_of_not_isRecord {rt : Runtime} {st : Stages} {e : Event}
    (h : e.isRecord = false) : st.Commutes rt e := by
  have hkept : ∃ e', st.applySoftDelete e = .kept e' ∧ e'.isRecord = false := by
    unfold applySoftDelete
    cases st.softDeleteHandler with
    | none => exact ⟨e, rfl, h⟩
    | some sd =>
      obtain ⟨e', he, hr⟩ := sd.transformEvent_of_not_isRecord h
      exact ⟨e', by simp [he], hr⟩
  obtain ⟨e', hsd, hr⟩ := hkept
  rw [Commutes, rewrite_of_not_isRecord h, Outcome.andThen_kept, hsd, Outcome.andThen_kept,
    rewrite_of_not_isRecord hr]
  exact Outcome.agree_self_iff.mpr (by simp)

theorem commutes_iff (rt : Runtime) (st : Stages) (e : Event) :
    st.Commutes rt e ↔ st.rewrite rt e ≠ .panicked ∧
      ∀ sd, st.softDeleteHandler = some sd → st.SoftDeleteStable rt sd e := by
  cases hsd : st.softDeleteHandler with
  | none =>
    have hid : ∀ e, st.applySoftDelete e = .kept e := fun e => by simp [applySoftDelete, hsd]
    rw [commutes_of_untouched (hid e)]
    simp [hid]
  | some sd =>
    simp only [Option.some.injEq, forall_eq']
    cases e with
    | cdc c => exact commutes_cdc_iff hsd c
    | fullSync table data => exact commutes_fullSync_iff hsd table data
    | _ =>
      refine iff_of_true (commutes_of_not_isRecord rfl) ⟨?_, trivial⟩
      rw [rewrite_of_not_isRecord rfl]
      simp

end Stages

/-! ## The two copies -/

/-- **The two copies of `process_single_event` agree exactly when the soft-delete test is stable
under the rewriting stages** (or the filter drops the event before any of them runs). -/
theorem processSingleEvent_agree_iff (rt : Runtime) (st : Stages) (e : Event) :
    (st.processSingleEvent rt e).Agree (ParallelTableProcessor.processSingleEvent rt st e) ↔
      st.applyFilter e = .dropped ∨
        (st.rewrite rt e ≠ .panicked ∧
          ∀ sd, st.softDeleteHandler = some sd → st.SoftDeleteStable rt sd e) := by
  rw [st.processSingleEvent_eq, ParallelTableProcessor.processSingleEvent,
    ← Stages.commutes_iff]
  rcases st.applyFilter_cases e with hf | hf
  · simp only [hf, Outcome.andThen_kept, reduceCtorEq, false_or]
    rfl
  · simp [hf, Outcome.Agree, Outcome.returned]

/-- A mapper that renames the soft-delete field, and the handler that tests it. -/
def renamingStages : Stages where
  filter := none
  transformer := none
  mapper := some ⟨{
    tables := AList.insert "users" ⟨none, some (AList.insert "deleted" (.simple "is_deleted") ∅)⟩ ∅
    unmappedFieldsStrategy := "include"
    unmappedFieldsPrefix := none }⟩
  softDeleteHandler := some ⟨{
    field := "deleted"
    deleteValues := [.bool true]
    handleOnFullSync := true
    handleOnCdc := true }⟩

/-- The update of a user that sets the soft-delete field. -/
def deletingUpdate : Event :=
  .cdc {
    eventType := .update
    table := "users"
    schema := "public"
    data := [("deleted", .bool true), ("id", .number (.ofNat 1))]
    position := some (.postgreSQL "0/10") }

/-- The sequential copy keeps an update of the renamed field, the parallel one a deletion. -/
theorem processSingleEvent_disagree : ¬ ∀ (rt : Runtime) (st : Stages) (e : Event),
    (st.processSingleEvent rt e).Agree (ParallelTableProcessor.processSingleEvent rt st e) := by
  intro h
  exact absurd (h ⟨id, id, ""⟩ renamingStages deletingUpdate) (by decide)

end MeiliBridge
