import MeiliBridge.Destination.Adapter
import MeiliBridge.Pipeline.SingleEvent

/-!
# What becomes of a soft delete

The soft-delete handler turns an update into an `Event::Delete`. `process_events` routes CDC events
and full-sync records and passes over everything else, so that event never reaches a batch:
`processEvents_skip` takes it out of any list without changing what the adapter does.
-/

set_option autoImplicit false

namespace MeiliBridge

open Interaction

namespace MeilisearchAdapter

theorem indexName_of_not_isRecord {rt : Runtime} {a : MeilisearchAdapter} {e : Event}
    (h : e.isRecord = false) : a.indexName rt e = none := by
  cases e with
  | cdc c => cases h
  | fullSync table data => cases h
  | _ => rfl

/-- **An event that is no record is not there for the adapter**: the same calls are made, with the
same answers, in the same order. -/
theorem processEvents_skip {rt : Runtime} {a : MeilisearchAdapter} {e : Event}
    (h : e.isRecord = false) (pre post : List Event) :
    a.processEvents rt (pre ++ e :: post) = a.processEvents rt (pre ++ post) := by
  have hgroups : a.groupEvents rt (pre ++ e :: post) = a.groupEvents rt (pre ++ post) := by
    simp [groupEvents, List.foldl_append, indexName_of_not_isRecord h]
  have hposition : lastPosition (pre ++ e :: post) = lastPosition (pre ++ post) := by
    unfold lastPosition
    cases e with
    | cdc c => cases h
    | _ => simp [List.filterMap_append]
  unfold processEvents
  rw [hgroups, hposition]

theorem processEvents_nil_issues {rt : Runtime} {a : MeilisearchAdapter} (o : MeiliOp) :
    ¬ (a.processEvents rt []).Issues o := by
  have hno : a.iterate (a.groupEvents rt []) = [] := by
    simp [iterate, groupEvents, List.perm_nil.mp (a.hashOrder_perm [])]
  simp [processEvents, hno, processGroups, Prog.bind, Prog.Issues]

end MeilisearchAdapter

/-- The update passes the filter and comes to the handler with a delete value in its field. -/
def ReachesHandlerDeleted (rt : Runtime) (st : Stages) (c : CdcEvent) : Prop :=
  ∃ sd c', st.softDeleteHandler = some sd ∧ st.applyFilter (.cdc c) = .kept (.cdc c) ∧
    st.rewrite rt (.cdc c) = .kept (.cdc c') ∧ sd.deletesUpdate c' = true

/-- The event made of an update lets the adapter issue a deletion, be it of any document. -/
def DeletionIssued (rt : Runtime) (st : Stages) (a : MeilisearchAdapter) (c : CdcEvent) : Prop :=
  ∃ e indexName ids, st.processSingleEvent rt (.cdc c) = .kept e ∧
    (a.processEvents rt [e]).Issues (.deleteDocuments indexName ids)

theorem processSingleEvent_deleted {rt : Runtime} {st : Stages} {c : CdcEvent}
    (h : ReachesHandlerDeleted rt st c) :
    ∃ table oldData position,
      st.processSingleEvent rt (.cdc c) = .kept (.delete table oldData position) := by
  obtain ⟨sd, c', hsd, hf, hr, hd⟩ := h
  refine ⟨c'.table, .object c'.data, c'.position, ?_⟩
  rw [st.processSingleEvent_eq, hf, Outcome.andThen_kept, hr, Outcome.andThen_kept,
    Stages.applySoftDelete_cdc hsd, if_pos hd]

theorem not_deletionIssued {rt : Runtime} {st : Stages} {a : MeilisearchAdapter} {c : CdcEvent}
    (h : ReachesHandlerDeleted rt st c) : ¬ DeletionIssued rt st a c := by
  obtain ⟨table, oldData, position, hkept⟩ := processSingleEvent_deleted h
  rintro ⟨e, indexName, ids, he, hissues⟩
  rw [hkept] at he
  cases he
  have hskip : a.processEvents rt [.delete table oldData position] = a.processEvents rt [] :=
    MeilisearchAdapter.processEvents_skip rfl [] []
  rw [hskip] at hissues
  exact MeilisearchAdapter.processEvents_nil_issues _ hissues

/-- **No soft delete reaches the index.** The event the pipeline makes of it causes no deletion,
and in any batch the adapter does what it would do without it. -/
theorem softDelete_never_issued (rt : Runtime) (st : Stages) (a : MeilisearchAdapter) (c : CdcEvent)
    (h : ReachesHandlerDeleted rt st c) :
    ¬ DeletionIssued rt st a c ∧
      ∃ e, st.processSingleEvent rt (.cdc c) = .kept e ∧ ∀ pre post,
        a.processEvents rt (pre ++ e :: post) = a.processEvents rt (pre ++ post) := by
  obtain ⟨table, oldData, position, hkept⟩ := processSingleEvent_deleted h
  exact ⟨not_deletionIssued h, _, hkept,
    fun pre post => MeilisearchAdapter.processEvents_skip rfl pre post⟩

/-- A task with nothing but a soft-delete field. -/
def softDeleteStages : Stages where
  filter := none
  transformer := none
  mapper := none
  softDeleteHandler := some ⟨{
    field := "deleted"
    deleteValues := [.bool true]
    handleOnFullSync := true
    handleOnCdc := true }⟩

def deletedUser : CdcEvent where
  eventType := .update
  table := "users"
  schema := "public"
  data := [("deleted", .bool true), ("id", .number (.ofNat 1))]
  position := some (.postgreSQL "0/10")

def usersAdapter : MeilisearchAdapter where
  primaryKey := none
  autoCreateIndex := true
  tableToIndex := ∅
  hashOrder := id
  hashOrder_perm := List.Perm.refl

theorem reachesHandlerDeleted_deletedUser (rt : Runtime) :
    ReachesHandlerDeleted rt softDeleteStages deletedUser :=
  ⟨_, _, rfl, rfl, rfl, by decide⟩

theorem softDelete_never_issued_deletedUser :
    ¬ DeletionIssued ⟨id, id, ""⟩ softDeleteStages usersAdapter deletedUser :=
  (softDelete_never_issued _ _ _ _ (reachesHandlerDeleted_deletedUser _)).1

theorem softDelete_not_always_issued : ¬ ∀ (rt : Runtime) (st : Stages) (a : MeilisearchAdapter)
    (c : CdcEvent), ReachesHandlerDeleted rt st c → DeletionIssued rt st a c := by
  intro h
  have hreach := reachesHandlerDeleted_deletedUser ⟨id, id, ""⟩
  exact not_deletionIssued hreach (h _ _ usersAdapter _ hreach)

end MeiliBridge
