import MeiliBridge.Destination.CallLog
import MeiliBridge.Destination.Documents

/-!
# What becomes of a delete

A delete event either leaves one id in the batch of its index, or an error that `process_events`
reports, or nothing but a line in the log: the last when its key field holds a value that is neither
a text nor an `i64`. `deletes_accounted_iff` says that nothing else loses a delete.
-/

set_option autoImplicit false

namespace MeiliBridge

open Interaction

namespace BatchProcessor

/-- The key field, if there is a key and the row has the field, holds a text or an `i64`. -/
def Deletable (primaryKey : Option String) (e : CdcEvent) : Prop :=
  ∀ pkField pkValue, primaryKey = some pkField → e.data.get pkField = some pkValue →
    pkValue.asStr.isSome ∨ pkValue.asI64.isSome

theorem deleteId_isSome (pkValue : Value) :
    (deleteId pkValue).isSome ↔ pkValue.asStr.isSome ∨ pkValue.asI64.isSome := by
  unfold deleteId
  cases pkValue.asStr <;> simp

/-- The event leaves one id more in the batch. -/
def LeavesId (batch batch' : BatchProcessor × List MeiliBridgeError) : Prop :=
  ∃ id, batch'.1.documentsToDelete = batch.1.documentsToDelete ++ [id] ∧ batch'.2 = batch.2

/-- A delete that can be carried out leaves its id, or its error. -/
theorem absorb_deletable {bp : BatchProcessor} {e : CdcEvent} (he : e.eventType = .delete)
    (errors : List MeiliBridgeError) (h : Deletable bp.primaryKey e) :
    LeavesId (bp, errors) (bp.absorb errors (.cdc e)) ∨
      ∃ err, (bp.absorb errors (.cdc e)).2 = errors ++ [err] := by
  obtain ⟨upserts, deletes, primaryKey⟩ := bp
  simp only [absorb, processEvent, processCdcEvent, he]
  cases primaryKey with
  | none => exact .inr ⟨_, rfl⟩
  | some pkField =>
    cases hk : e.data.get pkField with
    | none =>
      refine .inr ⟨.meilisearch s!"Missing primary key field '{pkField}' in delete event", ?_⟩
      simp [hk]
    | some pkValue =>
      have hid := (deleteId_isSome pkValue).mpr (h pkField pkValue rfl hk)
      obtain ⟨id, hid⟩ := Option.isSome_iff_exists.mp hid
      exact .inl ⟨id, by simp [hk, hid, pushDelete]⟩

/-- A delete that cannot leaves nothing. -/
theorem absorb_not_deletable {bp : BatchProcessor} {e : CdcEvent} (he : e.eventType = .delete)
    (errors : List MeiliBridgeError) (h : ¬ Deletable bp.primaryKey e) :
    bp.absorb errors (.cdc e) = (bp, errors) := by
  simp only [Deletable, not_forall] at h
  obtain ⟨pkField, pkValue, hkey, hget, hneither⟩ := h
  have hid : deleteId pkValue = none := by
    rw [← deleteId_isSome] at hneither
    simpa using hneither
  simp [absorb, processEvent, processCdcEvent, he, hkey, hget, hid]

theorem processAll_errors_sub (bp : BatchProcessor) (xs ys : List Event) :
    (bp.processAll xs).2 ⊆ (bp.processAll (xs ++ ys)).2 := by
  rw [processAll_snd, processAll_snd, List.filterMap_append]
  exact List.subset_append_left _ _

end BatchProcessor

namespace MeilisearchAdapter

open BatchProcessor

/-- The batch of an index after these events, with the errors of its events. -/
def batchOf (rt : Runtime) (a : MeilisearchAdapter) (indexName : String) (events : List Event) :
    BatchProcessor × List MeiliBridgeError :=
  (BatchProcessor.new (a.batchPrimaryKey indexName)).processAll
    (((a.groupEvents rt events).lookup indexName).getD [])

/-- The event that comes after these leaves an id, or the call reports it: in the errors of its
result, or by failing altogether. -/
def Accounted (rt : Runtime) (a : MeilisearchAdapter) (before : List Event) (e : CdcEvent)
    (r : Result SyncResult) : Prop :=
  ∃ indexName, a.indexName rt (.cdc e) = some indexName ∧
    (LeavesId (a.batchOf rt indexName before) (a.batchOf rt indexName (before ++ [.cdc e])) ∨
      (∃ err, r = .error err) ∨
      ∃ err result, r = .ok result ∧ err.display ∈ result.errors ∧
        (a.batchOf rt indexName (before ++ [.cdc e])).2 =
          (a.batchOf rt indexName before).2 ++ [err])

section Batches

variable {rt : Runtime} {a : MeilisearchAdapter}

theorem batchOf_eq (indexName : String) (events : List Event) :
    a.batchOf rt indexName events =
      (BatchProcessor.new (a.batchPrimaryKey indexName)).processAll
        (a.eventsOf rt indexName events) := by
  rw [batchOf, lookup_groupEvents]
  split
  · next hnil => rw [hnil, Option.getD_none]
  · rfl

theorem batchOf_snoc {indexName : String} {e : Event} (h : a.indexName rt e = some indexName)
    (before : List Event) :
    a.batchOf rt indexName (before ++ [e]) =
      (a.batchOf rt indexName before).1.absorb (a.batchOf rt indexName before).2 e := by
  rw [batchOf_eq, batchOf_eq, eventsOf_snoc, if_pos h, processAll_snoc]

theorem primaryKey_batchOf (indexName : String) (events : List Event) :
    (a.batchOf rt indexName events).1.primaryKey = a.batchPrimaryKey indexName := by
  rw [batchOf, processAll_fst]
  rfl

theorem batchOf_errors_sub (indexName : String) (xs ys : List Event) :
    (a.batchOf rt indexName xs).2 ⊆ (a.batchOf rt indexName (xs ++ ys)).2 := by
  rw [batchOf_eq, batchOf_eq, eventsOf, eventsOf, List.filter_append]
  exact processAll_errors_sub _ _ _

end Batches

/-! ## The errors of a result -/

theorem errors_addFailures (result : SyncResult) (errors : List String) :
    (errors.foldl SyncResult.addFailure result).errors = result.errors ++ errors := by
  induction errors generalizing result with
  | nil => exact (List.append_nil _).symm
  | cons error errors ih =>
    rw [List.foldl_cons, ih]
    simp [SyncResult.addFailure]

/-- What the result has so far, and these errors, are in the result of a run. -/
def Reports (errors : List String) (result : SyncResult) (r : Result SyncResult) : Prop :=
  ∀ result', r = .ok result' → result.errors ++ errors ⊆ result'.errors

theorem wp_processGroup_reports (a : MeilisearchAdapter) (indexName : String)
    (indexEvents : List Event) (result : SyncResult) (log : CallLog) :
    wp recorder (fun _ => True) (fun _ => True) (a.processGroup indexName indexEvents result)
      (fun r _ => Reports ((((BatchProcessor.new (a.batchPrimaryKey indexName)).processAll
        indexEvents).2).map MeiliBridgeError.display) result r) log := by
  apply a.processGroup_cases indexName indexEvents result
    (P := fun batch p => wp recorder (fun _ => True) (fun _ => True) p
      (fun r _ => Reports (batch.2.map MeiliBridgeError.display) result r) log)
  · intro bp errors _
    refine ⟨trivial, ?_⟩
    intro result' h
    cases h
    rw [errors_addFailures]
    exact List.Subset.refl _
  · intro bp errors
    apply (wp_true (a.applyBatch bp indexName (a.batchPrimaryKey indexName)) log).bind
    · intro batchResult log₁ _ _
      refine ⟨trivial, ?_⟩
      intro result' h
      cases h
      rw [SyncResult.absorb, errors_addFailures]
      exact List.subset_append_left _ _
    · intro e log₁ _ _ result' h
      cases h

theorem wp_processGroups_reports (a : MeilisearchAdapter) (groups : List (String × List Event))
    (result : SyncResult) (log : CallLog) :
    wp recorder (fun _ => True) (fun _ => True) (a.processGroups groups result)
      (fun r _ => Reports (groups.flatMap fun group =>
        ((BatchProcessor.new (a.batchPrimaryKey group.1)).processAll group.2).2.map
          MeiliBridgeError.display) result r) log := by
  induction groups generalizing result log with
  | nil =>
    refine ⟨trivial, ?_⟩
    intro result' h
    cases h
    simp
  | cons group groups ih =>
    apply (wp_processGroup_reports a group.1 group.2 result log).bind
    · intro result₁ log₁ _ h₁
      apply (ih result₁ log₁).mono (fun _ _ => trivial)
      intro r log₂ _ h₂ result' hr
      have hfirst := h₁ result₁ rfl
      have hrest := h₂ result' hr
      rw [List.flatMap_cons, ← List.append_assoc]
      rw [List.append_subset] at hrest ⊢
      exact ⟨List.Subset.trans hfirst hrest.1, hrest.2⟩
    · intro e log₁ _ _ result' h
      cases h

/-- The errors of every index's events are in the result. -/
theorem errors_reported {rt : Runtime} {a : MeilisearchAdapter} {events : List Event}
    {result : SyncResult} {log : CallLog}
    (hruns : MeiliProg.Ends (a.processEvents rt events) [] (.ok result) log)
    {indexName : String} {err : MeiliBridgeError}
    (herr : err ∈ (a.batchOf rt indexName events).2) : err.display ∈ result.errors := by
  have hwp : wp recorder (fun _ => True) (fun _ => True) (a.processEvents rt events)
      (fun r _ => Reports ((a.iterate (a.groupEvents rt events)).flatMap fun group =>
        ((BatchProcessor.new (a.batchPrimaryKey group.1)).processAll group.2).2.map
          MeiliBridgeError.display) .new r) [] := by
    apply (wp_processGroups_reports a _ .new []).bind
    · intro result₁ log₁ _ h₁
      refine ⟨trivial, ?_⟩
      intro result' h
      cases h
      exact h₁ result₁ rfl
    · intro e log₁ _ _ result' h
      cases h
  have hreports := (wp_iff.mp hwp).2 _ _ hruns result rfl
  apply hreports
  apply List.mem_append_right
  rw [batchOf_eq] at herr
  have hiterate : (indexName, a.eventsOf rt indexName events) ∈
      a.iterate (a.groupEvents rt events) := by
    rw [mem_iterate]
    refine ⟨rfl, ?_⟩
    intro hnil
    rw [hnil] at herr
    cases herr
  exact List.mem_flatMap.mpr ⟨_, hiterate, List.mem_map_of_mem herr⟩

/-! ## A run without errors of the server -/

section Succeeds

/-- The server answers every call well. -/
def Answered (answer : Result Unit) : Prop := answer = .ok ()

/-- A program that ends well when every call is answered well. -/
def Succeeds {ε α : Type} (p : Prog MeiliOp (fun _ => Result Unit) ε α) : Prop :=
  ∀ log, wp recorder Answered (fun _ => True) p (fun r _ => ∃ x, r = .ok x) log

theorem succeeds_pure {α : Type} (x : α) : Succeeds (pure x : MeiliProg α) := by
  intro log
  exact ⟨trivial, x, rfl⟩

theorem Succeeds.bind {α β : Type} {p : MeiliProg α} {f : α → MeiliProg β} (hp : Succeeds p)
    (hf : ∀ x, Succeeds (f x)) : Succeeds (p.bind f) := by
  intro log
  apply (hp log).bind
  · intro x log₁ _ _
    exact hf x log₁
  · intro e log₁ _ h
    obtain ⟨x, hx⟩ := h
    cases hx

theorem succeeds_perform (o : MeiliOp) : Succeeds (.perform o : MeiliProg (Result Unit)) := by
  intro log
  exact ⟨trivial, fun answer _ => ⟨trivial, answer, rfl⟩⟩

theorem succeeds_getOrCreateIndex (a : MeilisearchAdapter) (indexName : String)
    (primaryKey : Option String) : Succeeds (a.getOrCreateIndex indexName primaryKey) := by
  intro log
  unfold getOrCreateIndex
  cases a.autoCreateIndex with
  | true => exact ⟨trivial, fun answer h => ⟨trivial, (), h⟩⟩
  | false => exact ⟨trivial, fun answer h => ⟨trivial, (), h⟩⟩

theorem succeeds_applyBatch (a : MeilisearchAdapter) (bp : BatchProcessor) (indexName : String)
    (primaryKey : Option String) : Succeeds (a.applyBatch bp indexName primaryKey) := by
  have hupserts (result : SyncResult) : Succeeds (a.applyUpserts bp indexName result) := by
    unfold applyUpserts
    split
    · exact succeeds_pure result
    · exact (succeeds_perform _).bind fun answer => succeeds_pure _
  have hdeletes (result : SyncResult) : Succeeds (applyDeletes bp indexName result) := by
    unfold applyDeletes
    split
    · exact succeeds_pure result
    · exact (succeeds_perform _).bind fun answer => succeeds_pure _
  unfold applyBatch
  split
  · exact succeeds_pure SyncResult.new
  · exact (succeeds_getOrCreateIndex a indexName primaryKey).bind fun _ =>
      (hupserts SyncResult.new).bind hdeletes

theorem succeeds_processGroups (a : MeilisearchAdapter) (groups : List (String × List Event))
    (result : SyncResult) : Succeeds (a.processGroups groups result) := by
  induction groups generalizing result with
  | nil => exact succeeds_pure result
  | cons group groups ih =>
    have hgroup : Succeeds (a.processGroup group.1 group.2 result) := by
      apply a.processGroup_cases group.1 group.2 result (P := fun _ p => Succeeds p)
      · intro bp errors _
        exact succeeds_pure _
      · intro bp errors
        exact (succeeds_applyBatch a bp group.1 _).bind fun batchResult => succeeds_pure _
    exact hgroup.bind ih

/-- Some run of `process_events` ends with a result. -/
theorem exists_result (rt : Runtime) (a : MeilisearchAdapter) (events : List Event) :
    ∃ result log, MeiliProg.Ends (a.processEvents rt events) [] (.ok result) log := by
  have hsucceeds : Succeeds (a.processEvents rt events) :=
    (succeeds_processGroups a _ .new).bind fun result => succeeds_pure _
  obtain ⟨result, hresult⟩ := (wp_iff.mp (hsucceeds [])).2 _ _
    (runs_eval (show Answered (.ok ()) from rfl) (a.processEvents rt events) [])
  refine ⟨result, (eval recorder (.ok ()) (a.processEvents rt events) []).2, ?_⟩
  have hruns := runs_eval (h := recorder) (P := fun _ => True) (c := Except.ok ()) trivial
    (a.processEvents rt events) []
  rw [hresult] at hruns
  exact hruns

end Succeeds

end MeilisearchAdapter

open MeilisearchAdapter BatchProcessor in
/-- **Every delete of a list leaves an id or is reported, in every run, exactly when** the key
fields that are there hold texts and `i64`s. -/
theorem deletes_accounted_iff (rt : Runtime) (a : MeilisearchAdapter) (events : List Event) :
    (∀ r log, MeiliProg.Ends (a.processEvents rt events) [] r log →
      ∀ before e after, events = before ++ .cdc e :: after → e.eventType = .delete →
        a.Accounted rt before e r) ↔
      ∀ e, .cdc e ∈ events → e.eventType = .delete →
        ∀ indexName, a.indexName rt (.cdc e) = some indexName →
          Deletable (a.batchPrimaryKey indexName) e := by
  constructor
  -- an event that leaves neither an id nor an error is lost in every run, and there is a run
  · intro h e hmem he indexName hindex
    obtain ⟨result, log, hruns⟩ := exists_result rt a events
    obtain ⟨before, after, hevents⟩ := List.append_of_mem hmem
    obtain ⟨name, hname, haccounted⟩ := h _ log hruns before e after hevents he
    obtain rfl := Option.some.inj (hname.symm.trans hindex)
    by_contra hnot
    rw [← @primaryKey_batchOf rt a name before] at hnot
    rw [batchOf_snoc hname, absorb_not_deletable he _ hnot] at haccounted
    rcases haccounted with ⟨id, hid, -⟩ | ⟨err, herr⟩ | ⟨err, result', -, -, herrors⟩
    · exact absurd hid.symm (by simp)
    · cases herr
    · exact absurd herrors.symm (by simp)
  · intro h r log hruns before e after hevents he
    obtain ⟨name, hindex⟩ : ∃ name, a.indexName rt (.cdc e) = some name := ⟨_, rfl⟩
    refine ⟨name, hindex, ?_⟩
    have hmem : Event.cdc e ∈ events := by simp [hevents]
    have hdeletable := h e hmem he name hindex
    rw [← @primaryKey_batchOf rt a name before] at hdeletable
    rw [batchOf_snoc hindex]
    rcases absorb_deletable he (a.batchOf rt name before).2 hdeletable with hid | ⟨err, herr⟩
    · exact .inl hid
    · cases r with
      | error e => exact .inr (.inl ⟨e, rfl⟩)
      | ok result =>
        refine .inr (.inr ⟨err, result, rfl, ?_, herr⟩)
        -- an error of the event is among those of its batch, and these are reported
        have hpre : err ∈ (a.batchOf rt name (before ++ [.cdc e])).2 := by
          rw [batchOf_snoc hindex, herr]
          exact List.mem_append_right _ List.mem_cons_self
        apply errors_reported hruns
        rw [hevents, List.append_cons]
        exact batchOf_errors_sub name _ after hpre

/-! ### A key that is a flag -/

/-- The deletion of a row whose key field holds `true`. -/
def flagDelete : CdcEvent where
  eventType := .delete
  table := "books"
  schema := "public"
  data := [("id", .bool true)]
  position := none

theorem deletes_not_always_accounted : ¬ ∀ (rt : Runtime) (a : MeilisearchAdapter)
    (events : List Event) (r : Result SyncResult) (log : CallLog),
    MeiliProg.Ends (a.processEvents rt events) [] r log →
      ∀ before e after, events = before ++ .cdc e :: after → e.eventType = .delete →
        a.Accounted rt before e r := by
  intro h
  obtain ⟨name, hname, haccounted⟩ := h ⟨id, id, ""⟩ idAdapter [.cdc flagDelete] (.ok .new) []
    ⟨rfl, rfl⟩ [] flagDelete [] rfl rfl
  cases hname
  rcases haccounted with ⟨id, hid, -⟩ | ⟨err, herr⟩ | ⟨err, result, -, -, herrors⟩
  · cases hid
  · cases herr
  · cases herrors

end MeiliBridge
