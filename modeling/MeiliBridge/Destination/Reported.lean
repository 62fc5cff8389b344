import MeiliBridge.Destination.Documents
import MeiliBridge.Destination.ImportData

/-!
# What a result without failures says

The server may refuse any call, answer an error for a call that has taken effect, and refuse a
document without an id. Whatever it does, a call that adds no failure to the counts has done its
work: `Honest` is that statement for each function of the adapter, and it composes.

`honest_processEvents` is about a batch for any number of indexes. Each of them is left with its own
events, in whatever order the groups are taken.
-/

set_option autoImplicit false

namespace MeiliBridge

open Interaction

/-- A program of the adapter as the processor runs it, with panics, is the program itself. -/
theorem MeiliProg.wp_orFault {α C W : Type} {h : Handler MeiliOp (fun _ => Result Unit) C W}
    {P : C → Prop} {I : W → Prop} {Q : Except Fault α → W → Prop} :
    ∀ {p : MeiliProg α} {w : W},
      wp h P I p.orFault Q w ↔ wp h P I p (fun r w' => Q (Result.toFault r) w') w
  | .done _, _ => Iff.rfl
  | .act _ _, _ =>
    and_congr_right fun _ => forall_congr' fun _ => forall_congr' fun _ => wp_orFault

namespace SearchServer

variable {ε : Type} {srv : SearchServer} {a : MeilisearchAdapter} {rt : Runtime}

/-- No failure is taken back, and where none is added the documents meet `target`. -/
def Honest (srv : SearchServer) (p : Prog MeiliOp (fun _ => Result Unit) ε SyncResult)
    (result : SyncResult) (w : Documents) (target : Documents → Prop) : Prop :=
  wp srv.handler (fun _ => True) (fun _ => True) p (fun r w' => ∀ result', r = .ok result' →
    result.failedCount ≤ result'.failedCount ∧
      (result'.failedCount = result.failedCount → target w')) w

theorem honest_pure {result result₁ : SyncResult} {w : Documents} {target : Documents → Prop}
    (hle : result.failedCount ≤ result₁.failedCount) (h : target w) :
    Honest srv (pure result₁ : Prog MeiliOp (fun _ => Result Unit) ε SyncResult) result
      w target := by
  refine ⟨trivial, ?_⟩
  intro result' hr
  cases hr
  exact ⟨hle, fun _ => h⟩

theorem Honest.mono {p : Prog MeiliOp (fun _ => Result Unit) ε SyncResult} {result : SyncResult}
    {w : Documents} {target target' : Documents → Prop} (h : Honest srv p result w target)
    (htarget : ∀ w', target w' → target' w') : Honest srv p result w target' := by
  refine wp.mono (fun _ _ => trivial) ?_ h
  intro r w' _ hr result' hok
  obtain ⟨hle, hsame⟩ := hr result' hok
  exact ⟨hle, fun heq => htarget w' (hsame heq)⟩

/-- One program after another: no failure in all is no failure in either. -/
theorem Honest.bind {p : Prog MeiliOp (fun _ => Result Unit) ε SyncResult}
    {f : SyncResult → Prog MeiliOp (fun _ => Result Unit) ε SyncResult} {result : SyncResult}
    {w : Documents} {first : Documents → Prop} {second : Documents → Documents → Prop}
    (hp : Honest srv p result w first)
    (hf : ∀ result₁ w₁, Honest srv (f result₁) result₁ w₁ (second w₁)) :
    Honest srv (p.bind f) result w (fun w₂ => ∃ w₁, first w₁ ∧ second w₁ w₂) := by
  refine wp.bind hp ?_ ?_
  · intro result₁ w₁ _ h₁
    obtain ⟨hle, hfirst⟩ := h₁ result₁ rfl
    refine wp.mono (fun _ _ => trivial) ?_ (hf result₁ w₁)
    intro r w₂ _ h₂ result₂ hok
    obtain ⟨hle₂, hsecond⟩ := h₂ result₂ hok
    refine ⟨Nat.le_trans hle hle₂, ?_⟩
    intro hsame
    have hmid : result₁.failedCount = result.failedCount :=
      Nat.le_antisymm (hsame ▸ hle₂) hle
    exact ⟨w₁, hfirst hmid, hsecond (hsame.trans hmid.symm)⟩
  · intro e w₁ _ _ result' hok
    cases hok

theorem Honest.orFault {p : MeiliProg SyncResult} {result : SyncResult} {w : Documents}
    {target : Documents → Prop} (h : Honest srv p result w target) :
    Honest srv p.orFault result w target := by
  refine MeiliProg.wp_orFault.mpr (wp.mono (fun _ _ => trivial) ?_ h)
  intro r w' _ hr result' hok
  cases r with
  | ok result₁ => exact hr result' (congrArg Except.ok (Except.ok.inj hok))
  | error e => cases hok

/-- A call for `count` documents, and the record of its answer. -/
theorem honest_record {o : MeiliOp} {w : Documents} {target : Documents → Prop}
    (ho : ∀ w', srv.effect w o = some w' → target w') (result : SyncResult) (label : String)
    (count : Nat) :
    Honest srv (Prog.bind (.perform o) fun answer =>
      (pure (MeilisearchAdapter.record result label count answer) :
        Prog MeiliOp (fun _ => Result Unit) ε SyncResult)) result w target := by
  have hrefused : ∀ e w', ∀ result', Except.ok (ε := ε)
      (MeilisearchAdapter.record result label count (.error e)) = .ok result' →
      result.failedCount ≤ result'.failedCount ∧
        (result'.failedCount = result.failedCount → target w') := by
    intro e w' result' hok
    obtain rfl := Except.ok.inj hok
    simp only [MeilisearchAdapter.record, SyncResult.addFailure]
    exact ⟨by omega, fun h => by omega⟩
  refine ⟨trivial, ?_⟩
  intro reply _
  refine ⟨trivial, ?_⟩
  intro result' hok
  simp only [handler] at hok ⊢
  cases heffect : srv.effect w o with
  | none =>
    rw [heffect] at hok
    exact hrefused _ _ _ hok
  | some w' =>
    rw [heffect] at hok
    cases reply with
    | fails e applied => exact hrefused _ _ _ hok
    | succeeds =>
      obtain rfl := Except.ok.inj hok
      exact ⟨Nat.le_refl _, fun _ => ho w' heffect⟩

/-! ## The functions of the adapter -/

/-- Opening an index leaves the documents. -/
theorem wp_getOrCreateIndex (srv : SearchServer) (a : MeilisearchAdapter) (indexName : String)
    (primaryKey : Option String) (w : Documents) :
    wp srv.handler (fun _ => True) (fun _ => True) (a.getOrCreateIndex indexName primaryKey)
      (fun _ w' => w' = w) w := by
  unfold MeilisearchAdapter.getOrCreateIndex
  cases a.autoCreateIndex with
  | true =>
    refine ⟨trivial, ?_⟩
    intro reply _
    cases reply with
    | succeeds => exact ⟨trivial, rfl⟩
    | fails e applied => cases applied <;> exact ⟨trivial, rfl⟩
  | false =>
    refine ⟨trivial, ?_⟩
    intro reply _
    cases reply with
    | succeeds => exact ⟨trivial, rfl⟩
    | fails e applied => cases applied <;> exact ⟨trivial, rfl⟩

/-- The documents all carry an id, and are added. -/
def Added (srv : SearchServer) (indexName : String) (documents : List Value) (w w' : Documents) :
    Prop :=
  ∃ ops, srv.additions indexName documents = some ops ∧ w' = change w indexName ops

theorem added_nil (indexName : String) (w : Documents) : srv.Added indexName [] w w :=
  ⟨[], rfl, (change_nil w indexName).symm⟩

theorem added_of_effect {indexName : String} {documents : List Value} {pk : Option String}
    {w w' : Documents} (h : srv.effect w (.addDocuments indexName documents pk) = some w') :
    srv.Added indexName documents w w' := by
  obtain ⟨ops, hops, rfl⟩ := Option.map_eq_some_iff.mp h
  exact ⟨ops, hops, rfl⟩

theorem honest_applyUpserts (a : MeilisearchAdapter) (bp : BatchProcessor) (indexName : String)
    (result : SyncResult) (w : Documents) :
    Honest srv (a.applyUpserts bp indexName result) result w
      (srv.Added indexName bp.documentsToUpsert w) := by
  unfold MeilisearchAdapter.applyUpserts
  split
  · next hnil =>
    rw [hnil]
    exact honest_pure (Nat.le_refl _) (added_nil indexName w)
  · exact honest_record (fun _ h => added_of_effect h) result "Upsert" _

theorem honest_applyDeletes (bp : BatchProcessor) (indexName : String) (result : SyncResult)
    (w : Documents) :
    Honest srv (MeilisearchAdapter.applyDeletes bp indexName result) result w
      (fun w' => w' = change w indexName (bp.documentsToDelete.map .del)) := by
  unfold MeilisearchAdapter.applyDeletes
  split
  · next hnil =>
    rw [hnil]
    exact honest_pure (Nat.le_refl _) (change_nil w indexName).symm
  · refine honest_record ?_ result "Delete" _
    intro w' heffect
    exact (Option.some.inj heffect).symm

theorem honest_applyBatch (a : MeilisearchAdapter) (bp : BatchProcessor) (indexName : String)
    (primaryKey : Option String) (w : Documents) :
    Honest srv (a.applyBatch bp indexName primaryKey) .new w
      (fun w' => ∃ ops, srv.additions indexName bp.documentsToUpsert = some ops ∧
        w' = change w indexName (ops ++ bp.documentsToDelete.map .del)) := by
  unfold MeilisearchAdapter.applyBatch
  split
  · next hempty =>
    simp only [BatchProcessor.isEmpty, Bool.and_eq_true, List.isEmpty_iff] at hempty
    refine honest_pure (Nat.le_refl _) ⟨[], ?_, ?_⟩
    · rw [hempty.1]
      rfl
    · rw [hempty.2]
      exact (change_nil w indexName).symm
  · have hrest : Honest srv ((a.applyUpserts bp indexName .new).bind
        (MeilisearchAdapter.applyDeletes bp indexName)) .new w _ :=
      (honest_applyUpserts a bp indexName .new w).bind fun result₁ w₁ =>
        honest_applyDeletes bp indexName result₁ w₁
    refine wp.bind (wp_getOrCreateIndex srv a indexName primaryKey w) ?_ ?_
    · intro _ w₁ _ hw₁
      rw [hw₁]
      refine hrest.mono ?_
      rintro w' ⟨w₂, ⟨ops, hops, rfl⟩, rfl⟩
      exact ⟨ops, hops, (change_append w indexName ops _).symm⟩
    · intro e w₁ _ _ result' hok
      cases hok

/-! ## Documents with an id -/

/-- The change one document makes, if it carries an id. -/
def addition (srv : SearchServer) (indexName : String) (d : Value) :
    Option (KeyedLog.Op String Value) :=
  (srv.documentId indexName d).map fun id => .put id d

/-- A list of documents is taken if each of them carries an id. -/
theorem additions_eq_some {indexName : String} {documents : List Value}
    {ops : List (KeyedLog.Op String Value)} (h : srv.additions indexName documents = some ops) :
    (∀ d ∈ documents, (srv.documentId indexName d).isSome) ∧
      ops = documents.filterMap (srv.addition indexName) := by
  induction documents generalizing ops with
  | nil =>
    cases h
    exact ⟨fun d hd => absurd hd List.not_mem_nil, rfl⟩
  | cons d documents ih =>
    unfold additions at h
    rw [List.mapM_cons] at h
    obtain ⟨o, ho, h⟩ := Option.bind_eq_some_iff.mp h
    obtain ⟨rest, hrest, h⟩ := Option.bind_eq_some_iff.mp h
    obtain rfl := Option.some.inj h
    obtain ⟨id, hid, rfl⟩ := Option.map_eq_some_iff.mp ho
    obtain ⟨hkeyed, rfl⟩ := ih hrest
    refine ⟨?_, ?_⟩
    · intro d' hd'
      rcases List.mem_cons.mp hd' with rfl | hd'
      · rw [hid]
        rfl
      · exact hkeyed d' hd'
    · rw [List.filterMap_cons, addition, hid]
      rfl

theorem Added.eq_change {indexName : String} {documents : List Value} {w w' : Documents}
    (h : srv.Added indexName documents w w') :
    w' = change w indexName (documents.filterMap (srv.addition indexName)) := by
  obtain ⟨ops, hops, rfl⟩ := h
  rw [(additions_eq_some hops).2]

/-- If the server has taken the documents of the events, each of them carries an id. -/
theorem keyed_of_additions {indexName : String} {events : List Event}
    {ops : List (KeyedLog.Op String Value)}
    (h : srv.additions indexName (events.filterMap BatchProcessor.upsertOf) = some ops) :
    srv.Keyed indexName events := by
  intro e he d hd
  exact (additions_eq_some h).1 d (List.mem_filterMap.mpr ⟨e, he, hd⟩)

/-! ## The events of a batch -/

/-- What the server has taken, and the ids after it, are the events with all puts first. -/
theorem taken_eq_regroup {indexName : String} {events : List Event}
    {ops : List (KeyedLog.Op String Value)}
    (h : srv.additions indexName (events.filterMap BatchProcessor.upsertOf) = some ops) :
    ops ++ (events.filterMap (BatchProcessor.deleteOf (a.batchPrimaryKey indexName))).map .del =
      KeyedLog.regroup (srv.operations a indexName events) := by
  obtain ⟨hadd, hdel⟩ := regroup_operations (a := a) (keyed_of_additions h)
  rw [Option.some.inj (h.symm.trans hadd), hdel]
  rfl

theorem failedCount_addFailures (result : SyncResult) (errors : List String) :
    (errors.foldl SyncResult.addFailure result).failedCount =
      result.failedCount + errors.length := by
  induction errors using List.reverseRec with
  | nil => rfl
  | append_singleton errors e ih =>
    rw [List.foldl_append, List.length_append]
    show (errors.foldl SyncResult.addFailure result).failedCount + 1 = _
    rw [ih, Nat.add_assoc]
    rfl

/-! ## The groups of a list of events -/

/-- An index with the operations of these events, all puts first. -/
def withEvents (srv : SearchServer) (a : MeilisearchAdapter) (w : Documents)
    (group : String × List Event) : Documents :=
  change w group.1 (KeyedLog.regroup (srv.operations a group.1 group.2))

theorem honest_processGroup (srv : SearchServer) (a : MeilisearchAdapter) (indexName : String)
    (events : List Event) (result : SyncResult) (w : Documents) :
    Honest srv (a.processGroup indexName events result) result w
      (fun w' => w' = srv.withEvents a w (indexName, events)) := by
  unfold MeilisearchAdapter.processGroup
  dsimp only
  have hbp := BatchProcessor.processAll_fst (.new (a.batchPrimaryKey indexName)) events
  generalize (BatchProcessor.new (a.batchPrimaryKey indexName)).processAll events = batch at hbp
  obtain ⟨bp, errors⟩ := batch
  dsimp only at hbp ⊢
  have hupserts : bp.documentsToUpsert = events.filterMap BatchProcessor.upsertOf := by
    rw [hbp]
    rfl
  have hdeletes : bp.documentsToDelete =
      events.filterMap (BatchProcessor.deleteOf (a.batchPrimaryKey indexName)) := by
    rw [hbp]
    rfl
  -- the errors of single events are added in any case, so that no failure means none of them
  have herrors := failedCount_addFailures result (errors.map MeiliBridgeError.display)
  split
  · next hempty =>
    simp only [BatchProcessor.isEmpty, Bool.and_eq_true, List.isEmpty_iff] at hempty
    have hnone : srv.additions indexName (events.filterMap BatchProcessor.upsertOf) = some [] := by
      rw [← hupserts, hempty.1]
      rfl
    refine honest_pure (by omega) ?_
    rw [withEvents, ← taken_eq_regroup hnone, ← hdeletes, hempty.2]
    exact (change_nil w indexName).symm
  · refine wp.bind (honest_applyBatch a bp indexName _ w) ?_ ?_
    · intro batchResult w₁ _ h₁
      obtain ⟨-, hdone⟩ := h₁ batchResult rfl
      refine ⟨trivial, ?_⟩
      intro result' hok
      obtain rfl := Except.ok.inj hok
      simp only [SyncResult.absorb]
      refine ⟨by omega, ?_⟩
      intro hsame
      obtain ⟨ops, hops, rfl⟩ := hdone (by simp only [SyncResult.new]; omega)
      rw [hupserts] at hops
      rw [withEvents, ← taken_eq_regroup hops, hdeletes]
    · intro e w₁ _ _ result' hok
      cases hok

theorem honest_processGroups (srv : SearchServer) (a : MeilisearchAdapter)
    (groups : List (String × List Event)) (result : SyncResult) (w : Documents) :
    Honest srv (a.processGroups groups result) result w
      (fun w' => w' = groups.foldl (srv.withEvents a) w) := by
  induction groups generalizing result w with
  | nil => exact honest_pure (Nat.le_refl _) rfl
  | cons group rest ih =>
    refine ((honest_processGroup srv a group.1 group.2 result w).bind fun result₁ w₁ =>
      ih result₁ w₁).mono ?_
    rintro w' ⟨w₁, rfl, rfl⟩
    rfl

/-- The groups of one batch do not touch each other's indexes. -/
theorem foldl_withEvents {groups : List (String × List Event)}
    (hnodup : (groups.map Prod.fst).Nodup) (w : Documents) (indexName : String) :
    groups.foldl (srv.withEvents a) w indexName =
      KeyedLog.run (KeyedLog.regroup (srv.operations a indexName
        ((groups.lookup indexName).getD []))) (w indexName) := by
  induction groups generalizing w with
  | nil => rfl
  | cons group rest ih =>
    obtain ⟨name, events⟩ := group
    obtain ⟨hnew, hrest⟩ := List.nodup_cons.mp hnodup
    rw [List.foldl_cons, ih hrest]
    by_cases hname : indexName = name
    · subst hname
      have hnone : rest.lookup indexName = none := by
        rw [List.lookup_eq_none_iff]
        intro group hgroup
        apply bne_iff_ne.mpr
        rintro rfl
        exact hnew (List.mem_map.mpr ⟨group, hgroup, rfl⟩)
      rw [hnone, List.lookup_cons_self]
      simp [withEvents, change, operations, KeyedLog.regroup]
    · rw [List.lookup_cons, beq_false_of_ne hname, withEvents, change,
        Function.update_of_ne hname]

/-- What `process_events` leaves in each index when it counts no failure. -/
def Applied (srv : SearchServer) (rt : Runtime) (a : MeilisearchAdapter) (events : List Event)
    (w w' : Documents) : Prop :=
  ∀ indexName, w' indexName = KeyedLog.run (KeyedLog.regroup
    (srv.operations a indexName (a.eventsOf rt indexName events))) (w indexName)

theorem lookup_iterate (rt : Runtime) (a : MeilisearchAdapter) (events : List Event)
    (indexName : String) :
    ((a.iterate (a.groupEvents rt events)).lookup indexName).getD [] =
      a.eventsOf rt indexName events := by
  have hperm := a.iterate_perm (MeilisearchAdapter.names_groupEvents_nodup rt a events)
  have hnodup : ((a.iterate (a.groupEvents rt events)).map Prod.fst).Nodup :=
    (hperm.map Prod.fst).nodup_iff.mpr (MeilisearchAdapter.names_groupEvents_nodup rt a events)
  cases hlookup : (a.iterate (a.groupEvents rt events)).lookup indexName with
  | some indexEvents =>
    obtain ⟨xs, ys, hgroups, -⟩ := List.lookup_eq_some_iff.mp hlookup
    have hmem : (indexName, indexEvents) ∈ a.iterate (a.groupEvents rt events) := by
      rw [hgroups]
      exact List.mem_append_right xs List.mem_cons_self
    exact (MeilisearchAdapter.mem_iterate.mp hmem).1
  | none =>
    by_contra hsome
    have hmem := MeilisearchAdapter.mem_iterate.mpr ⟨rfl, Ne.symm hsome⟩
    rw [MeilisearchAdapter.lookup_of_mem hnodup hmem] at hlookup
    cases hlookup

/-- **A batch that is reported without failures is in the indexes**, each with its own events. -/
theorem honest_processEvents (srv : SearchServer) (rt : Runtime) (a : MeilisearchAdapter)
    (events : List Event) (w : Documents) :
    Honest srv (a.processEvents rt events) .new w (srv.Applied rt a events w) := by
  have hnodup : ((a.iterate (a.groupEvents rt events)).map Prod.fst).Nodup :=
    ((a.iterate_perm (MeilisearchAdapter.names_groupEvents_nodup rt a events)).map
      Prod.fst).nodup_iff.mpr (MeilisearchAdapter.names_groupEvents_nodup rt a events)
  refine wp.bind (honest_processGroups srv a _ .new w) ?_ ?_
  · intro result w₁ _ h₁
    obtain ⟨hle, hdone⟩ := h₁ result rfl
    refine ⟨trivial, ?_⟩
    intro result' hok
    obtain rfl := Except.ok.inj hok
    refine ⟨hle, ?_⟩
    intro hsame indexName
    rw [hdone hsame, foldl_withEvents hnodup, lookup_iterate]
  · intro e w₁ _ _ result' hok
    cases hok

/-! ## The documents of an import -/

theorem Added.append {indexName : String} {xs ys : List Value} {w w₁ w₂ : Documents}
    (hxs : srv.Added indexName xs w w₁) (hys : srv.Added indexName ys w₁ w₂) :
    srv.Added indexName (xs ++ ys) w w₂ := by
  obtain ⟨ops, hops, rfl⟩ := hxs
  obtain ⟨ops', hops', rfl⟩ := hys
  refine ⟨ops ++ ops', ?_, (change_append w indexName ops ops').symm⟩
  unfold additions at hops hops' ⊢
  rw [List.mapM_append, hops, hops']
  rfl

theorem honest_importChunks (srv : SearchServer) (indexName : String) (pk : Option String)
    (chunks : List (List Value)) (result : SyncResult) (w : Documents) :
    Honest srv (MeilisearchAdapter.importChunks indexName pk chunks result) result w
      (srv.Added indexName chunks.flatten w) := by
  induction chunks generalizing result w with
  | nil => exact honest_pure (Nat.le_refl _) (added_nil indexName w)
  | cons chunk rest ih =>
    have hadded : ∀ w', srv.effect w (.addDocuments indexName chunk pk) = some w' →
        srv.Added indexName chunk w w' := fun _ => added_of_effect
    have hcall := honest_record (ε := Fault) hadded result "Import" chunk.length
    refine (hcall.bind fun result₁ w₁ => ih result₁ w₁).mono ?_
    rintro w' ⟨w₁, hchunk, hrest⟩
    rw [List.flatten_cons]
    exact hchunk.append hrest

/-- **An import that is reported without failures has added all documents.** -/
theorem honest_importData (srv : SearchServer) (a : MeilisearchAdapter) (batchSize : Nat)
    (indexName : String) (documents : List Value) (pk : Option String) (w : Documents) :
    Honest srv (a.importData batchSize indexName documents pk) .new w
      (srv.Added indexName documents w) := by
  refine wp.bind (MeiliProg.wp_orFault (Q := fun _ w' => w' = w).mpr
    (wp_getOrCreateIndex srv a indexName _ w)) ?_ ?_
  · intro _ w₁ _ hw₁
    rw [hw₁]
    split
    · refine ⟨trivial, ?_⟩
      intro result' hok
      cases hok
    · next hzero =>
      have hchunks := honest_importChunks srv indexName pk (documents.chunks batchSize) .new w
      rw [List.flatten_chunks (Nat.pos_of_ne_zero hzero)] at hchunks
      exact hchunks
  · intro e w₁ _ _ result' hok
    cases hok

end SearchServer

end MeiliBridge
