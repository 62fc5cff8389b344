import MeiliBridge.Destination.DeleteFate
import MeiliBridge.Destination.ImportData

/-!
# What the counts of a sync result add up to

A refused call counts its documents as failed and itself as one failure more. A delete by a value
that is neither a text nor an `i64` is counted nowhere, and neither is an event of one of the raw
row kinds, which the adapter passes over. So the counts say of each data event once that it was
written, or that it failed, exactly when nothing of this happens: `counts_add_up_iff`.

What a program adds to the counts is read off the calls it makes. `Booked` relates the two and
composes, and `fate_of_event` says which of the events lead to a call.
-/

set_option autoImplicit false

namespace MeiliBridge

open Interaction

/-! ## What becomes of an event -/

namespace BatchProcessor

/-- An event that carries a row. -/
def isData : Event → Bool
  | .cdc e =>
    match e.eventType with
    | .create | .update | .delete => true
    | .truncate | .schema => false
  | .fullSync _ _ | .insert _ _ _ | .update _ _ _ _ | .delete _ _ _ => true
  | _ => false

/-- A row of one of the kinds that have no index. -/
def isPassedOver : Event → Bool
  | .insert _ _ _ | .update _ _ _ _ | .delete _ _ _ => true
  | _ => false

/-- A delete whose key field is there, with a value that is neither a text nor an `i64`. -/
def isLostDelete (primaryKey : Option String) : Event → Bool
  | .cdc e =>
    decide (e.eventType = .delete) &&
      ((primaryKey.bind fun pkField => e.data.get pkField).any fun pkValue =>
        (deleteId pkValue).isNone)
  | _ => false

/-- An event that leaves a document or an id in the batch. -/
def isOperation (primaryKey : Option String) (event : Event) : Bool :=
  (upsertOf event).isSome || (deleteOf primaryKey event).isSome

/-- An event that ends with an error. -/
def isFailure (primaryKey : Option String) (event : Event) : Bool :=
  (errorOf primaryKey event).isSome

/-- **What becomes of an event**: one that carries a row is an operation of the batch, an error, a
lost delete or passed over, and nothing else is any of these. -/
theorem fate_of_event (primaryKey : Option String) (event : Event) :
    (isOperation primaryKey event).toNat + (isFailure primaryKey event).toNat +
        (isLostDelete primaryKey event).toNat + (isPassedOver event).toNat =
      (isData event).toNat := by
  cases event with
  | cdc e =>
    cases he : e.eventType with
    | delete =>
      simp only [isOperation, isFailure, isLostDelete, isPassedOver, isData, upsertOf, deleteOf,
        errorOf, new, processEvent, processCdcEvent, he]
      cases primaryKey with
      | none => rfl
      | some pkField =>
        cases hk : e.data.get pkField with
        | none => simp [hk]
        | some pkValue => cases hd : deleteId pkValue <;> simp [hk, hd]
    | _ =>
      simp [isOperation, isFailure, isLostDelete, isPassedOver, isData, upsertOf, deleteOf, errorOf,
        processEvent, processCdcEvent, he]
  | _ =>
    simp [isOperation, isFailure, isLostDelete, isPassedOver, isData, upsertOf, deleteOf, errorOf,
      processEvent]

theorem len_processAll (primaryKey : Option String) (events : List Event) :
    ((new primaryKey).processAll events).1.len = events.countP (isOperation primaryKey) := by
  rw [processAll_fst]
  simp only [extend, new, len, List.nil_append]
  induction events with
  | nil => rfl
  | cons e events ih =>
    rw [List.countP_cons, ← ih]
    cases hu : upsertOf e with
    | some d =>
      have hd := @SearchServer.deleteOf_of_upsertOf primaryKey e d hu
      simp [isOperation, hu, hd]
      omega
    | none =>
      cases hd : deleteOf primaryKey e with
      | some id =>
        simp [isOperation, hu, hd]
        omega
      | none => simp [isOperation, hu, hd]

theorem length_errors_processAll (primaryKey : Option String) (events : List Event) :
    ((new primaryKey).processAll events).2.length = events.countP (isFailure primaryKey) := by
  rw [processAll_snd, List.length_filterMap_eq_countP]
  rfl

/-- The documents and the ids of a batch. -/
def items (bp : BatchProcessor) : List (Value ⊕ String) :=
  bp.documentsToUpsert.map .inl ++ bp.documentsToDelete.map .inr

theorem length_items (bp : BatchProcessor) : bp.items.length = bp.len := by simp [items, len]

end BatchProcessor

namespace MeilisearchAdapter

open CallLog BatchProcessor

/-! ## What a run adds to the counts -/

/-- What calls for `ops` and `errors` events that end with an error add to a result: each item taken
counts as a success; each item refused, each refusal and each error as a failure. -/
structure Booked (ops : List MeiliOp) (errors : Nat) (result result' : SyncResult)
    (calls : CallLog) : Prop where
  handed : calls.handed = ops
  success : result'.successCount = result.successCount + calls.taken.length
  failed : result'.failedCount =
    result.failedCount + errors + calls.rejected.length + calls.refusals

theorem Booked.refl (result : SyncResult) : Booked [] 0 result result [] := ⟨rfl, rfl, rfl⟩

theorem Booked.trans {ops ops' : List MeiliOp} {n m : Nat} {result₁ result₂ result₃ : SyncResult}
    {calls calls' : CallLog} (h : Booked ops n result₁ result₂ calls)
    (h' : Booked ops' m result₂ result₃ calls') :
    Booked (ops ++ ops') (n + m) result₁ result₃ (calls ++ calls') where
  handed := by rw [handed_append, h.handed, h'.handed]
  success := by
    rw [h'.success, h.success, taken_append, List.length_append]
    omega
  failed := by
    rw [h'.failed, h.failed, rejected_append, refusals_append, List.length_append]
    omega

/-- What is handed over, the errors and the refusals are all that is counted. -/
theorem Booked.total {ops : List MeiliOp} {n : Nat} {result : SyncResult} {calls : CallLog}
    (h : Booked ops n .new result calls) :
    result.successCount + result.failedCount =
      (ops.flatMap MeiliOp.items).length + n + calls.refusals := by
  have hitems := (taken_append_rejected calls).length_eq
  rw [h.handed, List.length_append] at hitems
  rw [h.success, h.failed, ← hitems]
  simp only [SyncResult.new]
  omega

/-- A call that is recorded counts what it hands over. -/
theorem booked_record {o : MeiliOp} (ho : o.handsOver = true) (result : SyncResult)
    (label : String) {count : Nat} (hcount : o.items.length = count) (answer : Result Unit) :
    Booked [o] 0 result (record result label count answer) [(o, answer)] where
  handed := by simp [CallLog.handed, ho]
  success := by cases answer <;> simp [record, SyncResult.addFailure, taken, hcount]
  failed := by
    cases answer <;>
      simp [record, SyncResult.addFailure, rejected, refusals, isRefusal, ho, hcount]

section Books

variable {ε : Type}

/-- The program makes the calls for `ops` and counts them, whatever is answered. -/
def Books (ops : List MeiliOp) (errors : Nat) (result : SyncResult)
    (p : Prog MeiliOp (fun _ => Result Unit) ε SyncResult) : Prop :=
  ∀ log, wp recorder (fun _ => True) (fun _ => True) p (fun r log' =>
    ∀ result', r = .ok result' → ∃ calls, log' = log ++ calls ∧
      Booked ops errors result result' calls) log

theorem books_pure (result : SyncResult) :
    Books [] 0 result (pure result : Prog MeiliOp (fun _ => Result Unit) ε SyncResult) := by
  intro log
  refine ⟨trivial, ?_⟩
  intro result' h
  cases h
  exact ⟨[], (List.append_nil log).symm, Booked.refl result⟩

/-- Two parts make the calls and the counts they make together. -/
theorem Books.bind {ops ops' : List MeiliOp} {n m : Nat} {result : SyncResult}
    {p : Prog MeiliOp (fun _ => Result Unit) ε SyncResult}
    {f : SyncResult → Prog MeiliOp (fun _ => Result Unit) ε SyncResult}
    (hp : Books ops n result p) (hf : ∀ result', Books ops' m result' (f result')) :
    Books (ops ++ ops') (n + m) result (p.bind f) := by
  intro log
  apply (hp log).bind
  · intro result₁ log₁ _ h₁
    obtain ⟨calls, rfl, hcalls⟩ := h₁ result₁ rfl
    apply (hf result₁ (log ++ calls)).mono (fun _ _ => trivial)
    intro r log₂ _ h₂ result₂ hr
    obtain ⟨calls', rfl, hcalls'⟩ := h₂ result₂ hr
    exact ⟨calls ++ calls', List.append_assoc _ _ _, hcalls.trans hcalls'⟩
  · intro e log₁ _ _ result' h
    cases h

theorem Books.ends {ops : List MeiliOp} {n : Nat} {result : SyncResult}
    {p : Prog MeiliOp (fun _ => Result Unit) ε SyncResult} (h : Books ops n .new p) {log : CallLog}
    (hruns : MeiliProg.Ends p [] (.ok result) log) : Booked ops n .new result log := by
  obtain ⟨calls, rfl, hcalls⟩ := (wp_iff.mp (h [])).2 _ _ hruns result rfl
  exact hcalls

theorem books_record {o : MeiliOp} (ho : o.handsOver = true) (result : SyncResult)
    (label : String) {count : Nat} (hcount : o.items.length = count) :
    Books [o] 0 result
      (Prog.bind (.perform o) fun answer => (pure (record result label count answer) :
        Prog MeiliOp (fun _ => Result Unit) ε SyncResult)) := by
  intro log
  refine ⟨trivial, ?_⟩
  intro answer _
  refine ⟨trivial, ?_⟩
  intro result' h
  cases h
  exact ⟨[(o, answer)], rfl, booked_record ho result label hcount answer⟩

end Books

/-! ## The functions -/

/-- Opening an index hands nothing over, even when it fails. -/
theorem wp_getOrCreateIndex (a : MeilisearchAdapter) (indexName : String)
    (primaryKey : Option String) (result : SyncResult) (log : CallLog) :
    wp recorder (fun _ => True) (fun _ => True) (a.getOrCreateIndex indexName primaryKey)
      (fun _ log' => ∃ calls, log' = log ++ calls ∧ Booked [] 0 result result calls) log := by
  have hbooked {o : MeiliOp} (ho : o.handsOver = false) (answer : Result Unit) :
      Booked [] 0 result result [(o, answer)] := by
    have hitems := items_eq_nil ho
    cases answer with
    | ok u => exact ⟨by simp [CallLog.handed, ho], by simp [taken, hitems], by
        simp [rejected, refusals, isRefusal]⟩
    | error e => exact ⟨by simp [CallLog.handed, ho], by simp [taken], by
        simp [rejected, refusals, isRefusal, ho, hitems]⟩
  unfold getOrCreateIndex
  cases a.autoCreateIndex with
  | true => exact ⟨trivial, fun answer _ => ⟨trivial, _, rfl, hbooked rfl answer⟩⟩
  | false => exact ⟨trivial, fun answer _ => ⟨trivial, _, rfl, hbooked rfl answer⟩⟩

/-- The calls for the documents of a batch. -/
def upsertCalls (a : MeilisearchAdapter) (bp : BatchProcessor) (indexName : String) :
    List MeiliOp :=
  if bp.documentsToUpsert = [] then []
  else [.addDocuments indexName bp.documentsToUpsert a.primaryKey]

/-- The calls for its ids. -/
def deleteCalls (bp : BatchProcessor) (indexName : String) : List MeiliOp :=
  if bp.documentsToDelete = [] then [] else [.deleteDocuments indexName bp.documentsToDelete]

def batchCalls (a : MeilisearchAdapter) (bp : BatchProcessor) (indexName : String) :
    List MeiliOp :=
  a.upsertCalls bp indexName ++ deleteCalls bp indexName

/-- They hand over the batch. -/
theorem items_batchCalls (a : MeilisearchAdapter) (bp : BatchProcessor) (indexName : String) :
    (a.batchCalls bp indexName).flatMap MeiliOp.items = bp.items := by
  rw [batchCalls, List.flatMap_append, BatchProcessor.items]
  congr 1
  · unfold upsertCalls
    split
    · next hnil => simp [hnil]
    · simp [MeiliOp.items]
  · unfold deleteCalls
    split
    · next hnil => simp [hnil]
    · simp [MeiliOp.items]

theorem batchCalls_of_isEmpty {bp : BatchProcessor} (h : bp.isEmpty = true)
    (a : MeilisearchAdapter) (indexName : String) : a.batchCalls bp indexName = [] := by
  simp only [isEmpty, Bool.and_eq_true, List.isEmpty_iff] at h
  simp [batchCalls, upsertCalls, deleteCalls, h.1, h.2]

theorem books_applyUpserts (a : MeilisearchAdapter) (bp : BatchProcessor) (indexName : String)
    (result : SyncResult) :
    Books (a.upsertCalls bp indexName) 0 result (a.applyUpserts bp indexName result) := by
  unfold applyUpserts upsertCalls
  split
  · exact books_pure result
  · exact books_record rfl result "Upsert" (by simp [MeiliOp.items])

theorem books_applyDeletes (bp : BatchProcessor) (indexName : String) (result : SyncResult) :
    Books (deleteCalls bp indexName) 0 result (applyDeletes bp indexName result) := by
  unfold applyDeletes deleteCalls
  split
  · exact books_pure result
  · exact books_record rfl result "Delete" (by simp [MeiliOp.items])

theorem books_applyBatch (a : MeilisearchAdapter) (bp : BatchProcessor) (indexName : String)
    (primaryKey : Option String) :
    Books (a.batchCalls bp indexName) 0 .new (a.applyBatch bp indexName primaryKey) := by
  unfold applyBatch
  split
  · next hempty =>
    rw [batchCalls_of_isEmpty hempty]
    exact books_pure .new
  · have hrest : Books (a.batchCalls bp indexName) 0 .new ((a.applyUpserts bp indexName .new).bind
        (applyDeletes bp indexName)) :=
      (books_applyUpserts a bp indexName .new).bind (books_applyDeletes bp indexName)
    intro log
    apply (wp_getOrCreateIndex a indexName primaryKey .new log).bind
    · rintro _ log₁ _ ⟨calls, rfl, hcalls⟩
      apply (hrest (log ++ calls)).mono (fun _ _ => trivial)
      intro r log₂ _ h result' hr
      obtain ⟨calls', rfl, hcalls'⟩ := h result' hr
      exact ⟨calls ++ calls', List.append_assoc _ _ _, hcalls.trans hcalls'⟩
    · intro e log₁ _ _ result' h
      cases h

/-- The calls for the events of an index. -/
def groupCalls (a : MeilisearchAdapter) (indexName : String) (indexEvents : List Event) :
    List MeiliOp :=
  a.batchCalls ((BatchProcessor.new (a.batchPrimaryKey indexName)).processAll indexEvents).1
    indexName

theorem length_items_groupCalls (a : MeilisearchAdapter) (indexName : String)
    (indexEvents : List Event) :
    ((a.groupCalls indexName indexEvents).flatMap MeiliOp.items).length =
      indexEvents.countP (isOperation (a.batchPrimaryKey indexName)) := by
  rw [groupCalls, items_batchCalls, length_items, len_processAll]

theorem counts_addFailures (result : SyncResult) (errors : List String) :
    (errors.foldl SyncResult.addFailure result).successCount = result.successCount ∧
      (errors.foldl SyncResult.addFailure result).failedCount =
        result.failedCount + errors.length := by
  induction errors generalizing result with
  | nil => exact ⟨rfl, rfl⟩
  | cons error errors ih =>
    obtain ⟨hsuccess, hfailed⟩ := ih (result.addFailure error)
    refine ⟨hsuccess, ?_⟩
    rw [List.foldl_cons, hfailed, List.length_cons]
    simp only [SyncResult.addFailure]
    omega

theorem books_processGroup (a : MeilisearchAdapter) (indexName : String)
    (indexEvents : List Event) (result : SyncResult) :
    Books (a.groupCalls indexName indexEvents)
      (indexEvents.countP (isFailure (a.batchPrimaryKey indexName))) result
      (a.processGroup indexName indexEvents result) := by
  rw [← length_errors_processAll]
  apply a.processGroup_cases indexName indexEvents result
    (P := fun batch => Books (a.batchCalls batch.1 indexName) batch.2.length result)
  · intro bp errors hempty log
    obtain ⟨hsuccess, hfailed⟩ := counts_addFailures result (errors.map MeiliBridgeError.display)
    refine ⟨trivial, ?_⟩
    intro result' h
    cases h
    refine ⟨[], (List.append_nil log).symm, (batchCalls_of_isEmpty hempty a indexName).symm,
      hsuccess, ?_⟩
    rw [hfailed, List.length_map]
    rfl
  · intro bp errors log
    obtain ⟨hsuccess, hfailed⟩ := counts_addFailures result (errors.map MeiliBridgeError.display)
    apply (books_applyBatch a bp indexName (a.batchPrimaryKey indexName) log).bind
    · intro batchResult log₁ _ h
      obtain ⟨calls, rfl, hcalls⟩ := h batchResult rfl
      refine ⟨trivial, ?_⟩
      intro result' hr
      cases hr
      refine ⟨calls, rfl, hcalls.handed, ?_, ?_⟩
      · simp [SyncResult.absorb, SyncResult.new, hsuccess, hcalls.success]
      · simp only [SyncResult.absorb, SyncResult.new, hfailed, hcalls.failed, List.length_map]
        omega
    · intro e log₁ _ _ result' h
      cases h

theorem books_processGroups (a : MeilisearchAdapter) (groups : List (String × List Event))
    (result : SyncResult) :
    Books (groups.flatMap fun group => a.groupCalls group.1 group.2)
      (groups.map fun group => group.2.countP (isFailure (a.batchPrimaryKey group.1))).sum result
      (a.processGroups groups result) := by
  induction groups generalizing result with
  | nil => exact books_pure result
  | cons group groups ih =>
    rw [List.flatMap_cons, List.map_cons, List.sum_cons]
    exact (books_processGroup a group.1 group.2 result).bind ih

/-- The event meets `p`, with the key its index is batched with. -/
def underKey (rt : Runtime) (a : MeilisearchAdapter) (p : Option String → Event → Bool)
    (e : Event) : Bool :=
  (a.indexName rt e).any fun name => p (a.batchPrimaryKey name) e

theorem countP_eq_sum {α : Type} (p : α → Bool) (xs : List α) :
    xs.countP p = (xs.map fun x => (p x).toNat).sum := by
  induction xs with
  | nil => rfl
  | cons x xs ih =>
    rw [List.countP_cons, ih, List.map_cons, List.sum_cons, Nat.add_comm]
    cases p x <;> rfl

/-- Counted group by group, each event is counted once. -/
theorem sum_countP_groups (rt : Runtime) (a : MeilisearchAdapter)
    (p : Option String → Event → Bool) (events : List Event) :
    ((a.iterate (a.groupEvents rt events)).map fun group =>
      group.2.countP (p (a.batchPrimaryKey group.1))).sum = events.countP (a.underKey rt p) := by
  have hsum := @sum_iterate rt a (fun name e => (p (a.batchPrimaryKey name) e).toNat) events
  simp only [countP_eq_sum, hsum]
  congr 1
  apply List.map_congr_left
  intro e _
  rw [underKey]
  cases a.indexName rt e <;> rfl

/-- An event that carries a row and is counted nowhere. -/
def isUncounted (rt : Runtime) (a : MeilisearchAdapter) (e : Event) : Bool :=
  a.underKey rt isLostDelete e || isPassedOver e

theorem fate_underKey (rt : Runtime) (a : MeilisearchAdapter) (e : Event) :
    (a.underKey rt isOperation e).toNat + (a.underKey rt isFailure e).toNat +
      (a.isUncounted rt e).toNat = (isData e).toNat := by
  have hfate := fun name => fate_of_event (a.batchPrimaryKey name) e
  unfold isUncounted underKey
  cases e with
  | cdc e =>
    have hfate := hfate (a.resolveIndexName rt (some e.schema) e.table e.table)
    simpa [indexName, isPassedOver] using hfate
  | fullSync table data =>
    simp [indexName, isOperation, isFailure, isLostDelete, isPassedOver, isData, upsertOf, errorOf,
      processEvent]
  | _ => simp [indexName, isPassedOver, isData]

theorem countP_fate (rt : Runtime) (a : MeilisearchAdapter) (events : List Event) :
    events.countP (a.underKey rt isOperation) + events.countP (a.underKey rt isFailure) +
      events.countP (a.isUncounted rt) = events.countP isData := by
  induction events with
  | nil => rfl
  | cons e events ih =>
    have hfate := fate_underKey rt a e
    simp only [countP_eq_sum, List.map_cons, List.sum_cons] at ih ⊢
    omega

/-- The calls for a list of events. -/
def eventCalls (rt : Runtime) (a : MeilisearchAdapter) (events : List Event) : List MeiliOp :=
  (a.iterate (a.groupEvents rt events)).flatMap fun group => a.groupCalls group.1 group.2

theorem length_items_eventCalls (rt : Runtime) (a : MeilisearchAdapter) (events : List Event) :
    ((a.eventCalls rt events).flatMap MeiliOp.items).length =
      events.countP (a.underKey rt isOperation) := by
  rw [eventCalls, List.flatMap_assoc, List.length_flatMap, ← sum_countP_groups]
  simp only [length_items_groupCalls]

theorem books_processEvents (rt : Runtime) (a : MeilisearchAdapter) (events : List Event) :
    Books (a.eventCalls rt events) (events.countP (a.underKey rt isFailure)) .new
      (a.processEvents rt events) := by
  intro log
  rw [← sum_countP_groups]
  apply (books_processGroups a (a.iterate (a.groupEvents rt events)) .new log).bind
  · intro result₁ log₁ _ h₁
    refine ⟨trivial, ?_⟩
    intro result' h
    cases h
    obtain ⟨calls, hlog, hcalls⟩ := h₁ result₁ rfl
    exact ⟨calls, hlog, hcalls.handed, hcalls.success, hcalls.failed⟩
  · intro e log₁ _ _ result' h
    cases h

theorem books_importChunks (indexName : String) (primaryKey : Option String)
    (chunks : List (List Value)) (result : SyncResult) :
    Books (chunks.map fun chunk => .addDocuments indexName chunk primaryKey) 0 result
      (importChunks indexName primaryKey chunks result) := by
  induction chunks generalizing result with
  | nil => exact books_pure result
  | cons chunk rest ih =>
    exact (books_record (ε := Fault) (o := .addDocuments indexName chunk primaryKey) rfl result
      "Import" (by simp [MeiliOp.items])).bind ih

theorem wp_orFault {α : Type} {I : CallLog → Prop} {Q : CallLog → Prop} :
    ∀ {p : MeiliProg α} {log : CallLog},
      wp recorder (fun _ => True) I p (fun _ log' => Q log') log →
        wp recorder (fun _ => True) I p.orFault (fun _ log' => Q log') log
  | .done _, _, h => h
  | .act _ _, _, h => ⟨h.1, fun answer hanswer => wp_orFault (h.2 answer hanswer)⟩

/-- The chunks of an import are all its documents; with chunks of size 0 it has no result. -/
theorem books_importData (a : MeilisearchAdapter) (batchSize : Nat) (indexName : String)
    (documents : List Value) (primaryKey : Option String) :
    ∃ ops : List MeiliOp, ops.flatMap MeiliOp.items = documents.map .inl ∧
      Books ops 0 .new (a.importData batchSize indexName documents primaryKey) := by
  unfold importData
  by_cases hzero : batchSize = 0
  · refine ⟨[.addDocuments indexName documents primaryKey], by simp [MeiliOp.items], ?_⟩
    intro log
    apply (wp_orFault (wp_getOrCreateIndex a indexName _ .new log)).bind
    · intro _ log₁ _ _
      rw [if_pos hzero]
      exact ⟨trivial, fun result' h => by cases h⟩
    · intro e log₁ _ _ result' h
      cases h
  · refine ⟨(documents.chunks batchSize).map fun chunk => .addDocuments indexName chunk primaryKey,
      ?_, ?_⟩
    · rw [List.flatMap_map]
      show (documents.chunks batchSize).flatMap (List.map Sum.inl) = _
      rw [← List.map_flatMap, List.flatMap_id', List.flatten_chunks (Nat.pos_of_ne_zero hzero)]
    · intro log
      apply (wp_orFault (wp_getOrCreateIndex a indexName _ .new log)).bind
      · rintro _ log₁ _ ⟨calls, rfl, hcalls⟩
        rw [if_neg hzero]
        have hchunks := books_importChunks indexName primaryKey (documents.chunks batchSize) .new
        apply (hchunks (log ++ calls)).mono (fun _ _ => trivial)
        intro r log₂ _ h result' hr
        obtain ⟨calls', rfl, hcalls'⟩ := h result' hr
        exact ⟨calls ++ calls', List.append_assoc _ _ _, hcalls.trans hcalls'⟩
      · intro e log₁ _ _ result' h
        cases h

/-! ## Each counted once -/

/-- The call hands the event's document or id to the event's index. -/
def Carries (rt : Runtime) (a : MeilisearchAdapter) (e : Event) : MeiliOp → Prop
  | .addDocuments name documents _ =>
    a.indexName rt e = some name ∧ ∃ d ∈ documents, upsertOf e = some d
  | .deleteDocuments name ids =>
    a.indexName rt e = some name ∧ ∃ id ∈ ids, deleteOf (a.batchPrimaryKey name) e = some id
  | .getIndex _ | .getOrCreateIndex _ _ => False

/-- A call with the event is answered well. -/
def IsWritten (rt : Runtime) (a : MeilisearchAdapter) (log : CallLog) (e : Event) : Prop :=
  ∃ o, (o, .ok ()) ∈ log ∧ a.Carries rt e o

/-- A call with the event is refused, or the event ends with an error that the result has. -/
def IsFailed (rt : Runtime) (a : MeilisearchAdapter) (result : SyncResult) (log : CallLog)
    (e : Event) : Prop :=
  (∃ o err, (o, .error err) ∈ log ∧ a.Carries rt e o) ∨
    ∃ name err, a.indexName rt e = some name ∧ errorOf (a.batchPrimaryKey name) e = some err ∧
      err.display ∈ result.errors

/-- Each event that carries a row is counted once: as one of those written, or as one of those that
failed. -/
def CountsOnce (rt : Runtime) (a : MeilisearchAdapter) (events : List Event) (result : SyncResult)
    (log : CallLog) : Prop :=
  ∃ written failed : List Event, (written ++ failed).Perm (events.filter isData) ∧
    result.successCount = written.length ∧ result.failedCount = failed.length ∧
    (∀ e ∈ written, a.IsWritten rt log e) ∧ ∀ e ∈ failed, a.IsFailed rt result log e

/-- Each document or id is counted once: as one of those taken, or as one of those refused. -/
def CountsItems (items : List (Value ⊕ String)) (result : SyncResult) (log : CallLog) : Prop :=
  (log.taken ++ log.rejected).Perm items ∧ result.successCount = log.taken.length ∧
    result.failedCount = log.rejected.length

section Once

variable {rt : Runtime} {a : MeilisearchAdapter} {e : Event} {events : List Event}
  {result : SyncResult} {log : CallLog}

theorem CountsOnce.total (h : a.CountsOnce rt events result log) :
    result.successCount + result.failedCount = events.countP isData := by
  obtain ⟨written, failed, hperm, hsuccess, hfailed, -, -⟩ := h
  rw [hsuccess, hfailed, ← List.length_append, hperm.length_eq, List.countP_eq_length_filter]

theorem Carries.isOperation {o : MeiliOp} (h : a.Carries rt e o) :
    a.underKey rt isOperation e = true := by
  cases o with
  | addDocuments name documents primaryKey =>
    obtain ⟨hname, d, -, hd⟩ := h
    simp [underKey, hname, BatchProcessor.isOperation, hd]
  | deleteDocuments name ids =>
    obtain ⟨hname, id, -, hid⟩ := h
    simp [underKey, hname, BatchProcessor.isOperation, hid]
  | _ => cases h

theorem IsWritten.isOperation (h : a.IsWritten rt log e) : a.underKey rt isOperation e = true := by
  obtain ⟨o, -, ho⟩ := h
  exact ho.isOperation

theorem IsFailed.counted (h : a.IsFailed rt result log e) :
    a.underKey rt isOperation e = true ∨ a.underKey rt isFailure e = true := by
  rcases h with ⟨o, err, -, ho⟩ | ⟨name, err, hname, herr, -⟩
  · exact .inl ho.isOperation
  · exact .inr (by simp [underKey, hname, isFailure, herr])

/-- No event that carries a row is left out. -/
theorem CountsOnce.uncounted (h : a.CountsOnce rt events result log) (he : e ∈ events) :
    a.isUncounted rt e = false := by
  obtain ⟨written, failed, hperm, -, -, hwritten, hfailed⟩ := h
  have hfate := fate_underKey rt a e
  cases hun : a.isUncounted rt e with
  | false => rfl
  | true =>
    have hdata : isData e = true := by
      cases hdata : isData e with
      | true => rfl
      | false => simp [hun, hdata] at hfate
    have hmem := hperm.mem_iff.mpr (List.mem_filter.mpr ⟨he, hdata⟩)
    have hcounted : a.underKey rt isOperation e = true ∨ a.underKey rt isFailure e = true := by
      rcases List.mem_append.mp hmem with hmem | hmem
      · exact .inl (hwritten e hmem).isOperation
      · exact (hfailed e hmem).counted
    rcases hcounted with hcounted | hcounted <;> simp [hun, hdata, hcounted] at hfate

theorem mem_eventCalls {name : String} {o : MeiliOp} (he : e ∈ events)
    (hname : a.indexName rt e = some name)
    (ho : o ∈ a.groupCalls name (a.eventsOf rt name events)) : o ∈ a.eventCalls rt events := by
  refine List.mem_flatMap.mpr ⟨(name, a.eventsOf rt name events), ?_, ho⟩
  rw [mem_iterate]
  refine ⟨rfl, ?_⟩
  exact List.ne_nil_of_mem (List.mem_filter.mpr ⟨he, by simpa using hname⟩)

theorem underKey_iff {p : Option String → Event → Bool} :
    a.underKey rt p e = true ↔
      ∃ name, a.indexName rt e = some name ∧ p (a.batchPrimaryKey name) e = true :=
  Option.any_eq_true _ _

/-- An event that leads to an operation is in one of the calls. -/
theorem exists_carries (he : e ∈ events) (h : a.underKey rt isOperation e = true) :
    ∃ o ∈ a.eventCalls rt events, a.Carries rt e o := by
  obtain ⟨name, hname, hop⟩ := underKey_iff.mp h
  have hmem : e ∈ a.eventsOf rt name events := List.mem_filter.mpr ⟨he, by simpa using hname⟩
  let batch := (BatchProcessor.new (a.batchPrimaryKey name)).extend (a.eventsOf rt name events)
  have hcalls : a.groupCalls name (a.eventsOf rt name events) = a.batchCalls batch name := by
    rw [groupCalls, processAll_fst]
  cases hd : upsertOf e with
  | some d =>
    have hupsert : d ∈ batch.documentsToUpsert :=
      List.mem_append_right _ (List.mem_filterMap.mpr ⟨e, hmem, hd⟩)
    refine ⟨.addDocuments name batch.documentsToUpsert a.primaryKey, mem_eventCalls he hname ?_,
      hname, d, hupsert, hd⟩
    rw [hcalls, batchCalls, upsertCalls, if_neg (List.ne_nil_of_mem hupsert)]
    exact List.mem_cons_self
  | none =>
    obtain ⟨id, hid⟩ : ∃ id, deleteOf (a.batchPrimaryKey name) e = some id := by
      rw [BatchProcessor.isOperation, hd, Option.isSome_none, Bool.false_or] at hop
      exact Option.isSome_iff_exists.mp hop
    have hdelete : id ∈ batch.documentsToDelete :=
      List.mem_append_right _ (List.mem_filterMap.mpr ⟨e, hmem, hid⟩)
    refine ⟨.deleteDocuments name batch.documentsToDelete, mem_eventCalls he hname ?_, hname, id,
      hdelete, hid⟩
    rw [hcalls, batchCalls, deleteCalls, if_neg (List.ne_nil_of_mem hdelete)]
    exact List.mem_append_right _ List.mem_cons_self

/-- The errors of the events are in the result. -/
theorem isFailed_of_isFailure
    (hruns : MeiliProg.Ends (a.processEvents rt events) [] (.ok result) log)
    (he : e ∈ events) (h : a.underKey rt isFailure e = true) : a.IsFailed rt result log e := by
  obtain ⟨name, hname, hfailure⟩ := underKey_iff.mp h
  obtain ⟨err, herr⟩ := Option.isSome_iff_exists.mp hfailure
  refine .inr ⟨name, err, hname, herr, ?_⟩
  apply errors_reported (a := a) hruns
  show err ∈ (a.batchOf rt name events).2
  rw [batchOf_eq, processAll_snd]
  exact List.mem_filterMap.mpr ⟨e, List.mem_filter.mpr ⟨he, by simpa using hname⟩, herr⟩

/-- The events that lead to an operation and those that end with an error, where no other carries a
row. -/
theorem filter_operations_failures (h : ∀ e ∈ events, a.isUncounted rt e = false) :
    (events.filter (a.underKey rt isOperation) ++ events.filter (a.underKey rt isFailure)).Perm
      (events.filter isData) := by
  have hfate (e : Event) := fate_underKey rt a e
  have hsplit := List.filter_append_perm (a.underKey rt isOperation) (events.filter isData)
  rw [List.filter_filter, List.filter_filter] at hsplit
  have hoperations : events.filter (fun e => a.underKey rt isOperation e && isData e) =
      events.filter (a.underKey rt isOperation) := by
    apply List.filter_congr
    intro e _
    have hfate := hfate e
    cases hop : a.underKey rt isOperation e with
    | true => cases hdata : isData e <;> simp [hop, hdata] at hfate ⊢
    | false => rfl
  have hfailures : events.filter (fun e => !a.underKey rt isOperation e && isData e) =
      events.filter (a.underKey rt isFailure) := by
    apply List.filter_congr
    intro e he
    have hfate := hfate e
    rw [h e he] at hfate
    cases hop : a.underKey rt isOperation e <;> cases hfail : a.underKey rt isFailure e <;>
      cases hdata : isData e <;> simp [hop, hfail, hdata] at hfate ⊢
  rw [hoperations, hfailures] at hsplit
  exact hsplit

/-- **Each event is counted once exactly when** no call is refused and no event that carries a row
is left out. -/
theorem countsOnce_iff (hruns : MeiliProg.Ends (a.processEvents rt events) [] (.ok result) log) :
    a.CountsOnce rt events result log ↔
      log.refusals = 0 ∧ ∀ e ∈ events, a.isUncounted rt e = false := by
  have hbooked := (books_processEvents rt a events).ends hruns
  have hcounts := hbooked.total
  have hfate := countP_fate rt a events
  rw [length_items_eventCalls] at hcounts
  constructor
  · intro h
    have htotal := h.total
    have huncounted : events.countP (a.isUncounted rt) = 0 := by
      rw [List.countP_eq_zero]
      intro e he
      simp [h.uncounted he]
    exact ⟨by omega, fun e he => h.uncounted he⟩
  · rintro ⟨hrefusals, huncounted⟩
    have hrejected := rejected_eq_nil hrefusals
    refine ⟨_, _, filter_operations_failures huncounted, ?_, ?_, ?_, ?_⟩
    · have hfailed := hbooked.failed
      simp only [hrejected, hrefusals, SyncResult.new, List.length_nil] at hfailed
      rw [← List.countP_eq_length_filter]
      omega
    · rw [hbooked.failed, hrejected, hrefusals, List.countP_eq_length_filter]
      simp [SyncResult.new]
    · intro e he
      obtain ⟨he, hop⟩ := List.mem_filter.mp he
      obtain ⟨o, ho, hcarries⟩ := exists_carries he hop
      rw [← hbooked.handed] at ho
      exact ⟨o, answered_of_handed hrefusals ho, hcarries⟩
    · intro e he
      obtain ⟨he, hfailure⟩ := List.mem_filter.mp he
      exact isFailed_of_isFailure hruns he hfailure

theorem CountsItems.total {items : List (Value ⊕ String)} (h : CountsItems items result log) :
    result.successCount + result.failedCount = items.length := by
  obtain ⟨hperm, hsuccess, hfailed⟩ := h
  rw [hsuccess, hfailed, ← List.length_append, hperm.length_eq]

theorem countsItems_iff {ops : List MeiliOp} {items : List (Value ⊕ String)}
    (hitems : ops.flatMap MeiliOp.items = items) (h : Booked ops 0 .new result log) :
    CountsItems items result log ↔ log.refusals = 0 := by
  constructor
  · intro hcounts
    have hbooked := h.total
    rw [hcounts.total, hitems] at hbooked
    omega
  · intro hrefusals
    refine ⟨?_, ?_, ?_⟩
    · rw [← hitems, ← h.handed]
      exact taken_append_rejected log
    · rw [h.success]
      exact Nat.zero_add _
    · rw [h.failed, hrefusals]
      simp [SyncResult.new]

end Once

end MeilisearchAdapter

open MeilisearchAdapter BatchProcessor in
/-- **What the counts of a sync result add up to.** In every run, whatever the server answers:
`process_events` counts each event that carries a row once exactly when no call with documents or
ids is refused and the list holds no lost delete and no row of a kind without index; `apply_batch`
counts each document and id of its batch once, and `import_data` each of its documents, exactly when
no such call is refused. -/
theorem counts_add_up_iff (rt : Runtime) (a : MeilisearchAdapter) (indexName : String)
    (primaryKey : Option String) (result : SyncResult) (log : CallLog) :
    (∀ events, MeiliProg.Ends (a.processEvents rt events) [] (.ok result) log →
      ((result.successCount + result.failedCount = events.countP isData ∧
          a.CountsOnce rt events result log) ↔
        log.refusals = 0 ∧ ∀ e ∈ events, a.isUncounted rt e = false)) ∧
    (∀ bp : BatchProcessor,
      MeiliProg.Ends (a.applyBatch bp indexName primaryKey) [] (.ok result) log →
      ((result.successCount + result.failedCount = bp.len ∧ CountsItems bp.items result log) ↔
        log.refusals = 0)) ∧
    (∀ batchSize documents,
      MeiliProg.Ends (a.importData batchSize indexName documents primaryKey) [] (.ok result) log →
      ((result.successCount + result.failedCount = documents.length ∧
          CountsItems (documents.map .inl) result log) ↔
        log.refusals = 0)) := by
  refine ⟨?_, ?_, ?_⟩
  · intro events hruns
    rw [← countsOnce_iff hruns, and_iff_right_iff_imp]
    exact CountsOnce.total
  · intro bp hruns
    have hbooked := (a.books_applyBatch bp indexName primaryKey).ends hruns
    rw [← countsItems_iff (a.items_batchCalls bp indexName) hbooked, and_iff_right_iff_imp,
      ← length_items]
    exact CountsItems.total
  · intro batchSize documents hruns
    obtain ⟨ops, hitems, hbooks⟩ := a.books_importData batchSize indexName documents primaryKey
    rw [← countsItems_iff hitems (hbooks.ends hruns), and_iff_right_iff_imp]
    intro hcounts
    rw [hcounts.total, List.length_map]

/-! ### One document refused -/

def refusedUpsert : MeiliOp × Result Unit :=
  (.addDocuments "books" [.object [("id", .number (.ofNat 1))]] (some "id"),
    .error (.meilisearch "Add documents failed"))

/-- The calls for one new book when the server has opened the index and refuses the document. -/
def refusedBook : CallLog := [(.getOrCreateIndex "books" (some "id"), .ok ()), refusedUpsert]

/-- The result of these calls: one document, and two failures. -/
def refusedResult (label : String) : SyncResult where
  successCount := 0
  failedCount := 2
  lastPosition := none
  errors := [label ++ " error: " ++ (MeiliBridgeError.meilisearch "Add documents failed").display]

/-- What the server answers to them. -/
def refusedAnswers : List (Result Unit) := refusedBook.map Prod.snd

theorem refusedBook_events : MeiliProg.Ends
    (idAdapter.processEvents ⟨id, id, ""⟩ [bookEvent .create]) [] (.ok (refusedResult "Upsert"))
      refusedBook :=
  ends_of_run refusedAnswers rfl

theorem counts_not_always : ¬ ∀ (rt : Runtime) (a : MeilisearchAdapter) (events : List Event)
    (result : SyncResult) (log : CallLog),
    MeiliProg.Ends (a.processEvents rt events) [] (.ok result) log →
      result.successCount + result.failedCount = events.countP BatchProcessor.isData := by
  intro h
  have hcounts := h _ _ _ _ _ refusedBook_events
  cases hcounts

/-- The calls for a new book and its deletion, all answered well. -/
def acceptedBook : CallLog := [
  (.getOrCreateIndex "books" (some "id"), .ok ()),
  (.addDocuments "books" [.object [("id", .number (.ofNat 1))]] (some "id"), .ok ()),
  (.deleteDocuments "books" ["1"], .ok ())]

/-- The calls for an import of two documents in chunks of one, the first of which is refused. -/
def importedBooks : CallLog := refusedBook ++ [(.addDocuments "books" [.null] (some "id"), .ok ())]

/-- A book written and removed is counted once for each event. A refused document next to a delete
by a flag gives the right sum, two, but counts the document twice and the delete nowhere. A batch
that is accepted counts each of its items, an import with a chunk refused does not. -/
theorem counts_add_up_iff_refused :
    idAdapter.CountsOnce ⟨id, id, ""⟩ [bookEvent .create, bookEvent .delete] ⟨2, 0, none, []⟩
        acceptedBook ∧
      ¬ idAdapter.CountsOnce ⟨id, id, ""⟩ [bookEvent .create, .cdc flagDelete]
        (refusedResult "Upsert") refusedBook ∧
      MeilisearchAdapter.CountsItems [.inl (.object [("id", .number (.ofNat 1))]), .inr "1"]
        ⟨2, 0, none, []⟩ acceptedBook ∧
      ¬ MeilisearchAdapter.CountsItems [.inl (.object [("id", .number (.ofNat 1))]), .inl .null]
        { refusedResult "Import" with successCount := 1 } importedBooks := by
  have haccepts : acceptedBook.refusals = 0 := rfl
  obtain ⟨hwritten, htaken, -⟩ := counts_add_up_iff ⟨id, id, ""⟩ idAdapter "books" (some "id")
    ⟨2, 0, none, []⟩ acceptedBook
  obtain ⟨hevents, -, -⟩ := counts_add_up_iff ⟨id, id, ""⟩ idAdapter "books" (some "id")
    (refusedResult "Upsert") refusedBook
  obtain ⟨-, -, himport⟩ := counts_add_up_iff ⟨id, id, ""⟩ idAdapter "books" (some "id")
    { refusedResult "Import" with successCount := 1 } importedBooks
  refine ⟨?_, ?_, ?_, ?_⟩
  · refine ((hwritten [bookEvent .create, bookEvent .delete]
      (ends_of_run (acceptedBook.map Prod.snd) rfl)).mpr ⟨haccepts, ?_⟩).2
    intro e he
    rcases List.mem_pair.mp he with rfl | rfl <;> rfl
  · intro h
    have hends := (hevents [bookEvent .create, .cdc flagDelete]
      (ends_of_run refusedAnswers rfl)).mp ⟨rfl, h⟩
    exact absurd hends.1 Nat.one_ne_zero
  · exact ((htaken ⟨[.object [("id", .number (.ofNat 1))]], ["1"], some "id"⟩
      (ends_of_run (acceptedBook.map Prod.snd) rfl)).mpr haccepts).2
  · intro h
    have hends := (himport 1 [.object [("id", .number (.ofNat 1))], .null]
      (ends_of_run (importedBooks.map Prod.snd) rfl)).mp ⟨h.total, h⟩
    exact absurd hends Nat.one_ne_zero

end MeiliBridge
