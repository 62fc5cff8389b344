import MeiliBridge.Lib.Replay
import MeiliBridge.Destination.IndexRouting
import MeiliBridge.Destination.Reported
import MeiliBridge.Orchestrator.FullSyncImport

/-!
# The commands to the destination

The commands that the destination processor serves, each as a program over the calls to the search
server. Whatever those calls answer, and wherever the program is cut short, it has done a part of
the command's operations to an index (`wp_serve_partlyRun`); a response that counts no failure says
that it has done all of them in their order (`wp_serve_reported`).
-/

set_option autoImplicit false

namespace MeiliBridge

open Interaction Trans

inductive DestinationCommand where
  | processEvents (events : List Event)
  | importData (index : String) (documents : List Value) (primaryKey : Option String)
  | ensureIndex (indexName : String) (primaryKey : Option String)
  | healthCheck
  | shutdown

/-- `ensure_index`. The primary key of the command is not handed on. -/
def MeilisearchAdapter.ensureIndex (a : MeilisearchAdapter) (indexName : String) : MeiliProg Unit :=
  a.getOrCreateIndex indexName (a.batchPrimaryKey indexName)

namespace DestinationProcessor

/-- What is served without anything to count. -/
def completed : DestinationResponse := ⟨1, 0, none, []⟩

/-- The response of the arm `HealthCheck` -/
def healthResponse (healthy : Bool) : DestinationResponse :=
  if healthy then completed else ⟨0, 1, none, ["Health check failed"]⟩

/-- The arm for a command; `Shutdown` has none that answers. The size of import batches and the
health of the server are what the processor meets. -/
def serve (rt : Runtime) (a : MeilisearchAdapter) (batchSize : Nat) (healthy : Bool) :
    DestinationCommand → Option (Prog MeiliOp (fun _ => Result Unit) Fault DestinationResponse)
  | .processEvents events => some do
    let syncResult ← (a.processEvents rt events).orFault
    pure syncResult.response
  | .importData index documents primaryKey => some do
    let syncResult ← a.importData batchSize index documents primaryKey
    pure syncResult.response
  | .ensureIndex indexName _ => some do
    (a.ensureIndex indexName).orFault
    pure completed
  | .healthCheck => some (pure (healthResponse healthy))
  | .shutdown => none

/-- What is sent to `resp_tx`; a panic drops it. -/
def answerOf : Except Fault DestinationResponse → Answer
  | .ok response => .response response
  | .error (.err e) => .error e
  | .error .panic => .dropped

/-! ## What a command may do to an index -/

end DestinationProcessor

namespace MeiliOp

/-- The index whose documents a call changes. -/
def written : MeiliOp → Option String
  | .addDocuments indexName _ _ | .deleteDocuments indexName _ => some indexName
  | .getIndex _ | .getOrCreateIndex _ _ => none

/-- What a call does to its index, if it takes effect. -/
def operations (srv : SearchServer) : MeiliOp → List (KeyedLog.Op String Value)
  | .addDocuments indexName documents _ => documents.filterMap (srv.addition indexName)
  | .deleteDocuments _ ids => ids.map .del
  | .getIndex _ | .getOrCreateIndex _ _ => []

theorem indexName_of_written {o : MeiliOp} {indexName : String}
    (h : o.written = some indexName) : o.indexName = indexName := by
  cases o with
  | addDocuments | deleteDocuments => exact Option.some.inj h
  | getIndex | getOrCreateIndex => cases h

end MeiliOp

/-- A call takes effect on one index or on none. -/
theorem SearchServer.exec_cases (srv : SearchServer) (o : MeiliOp) (reply : Reply) (w : Documents)
    (indexName : String) :
    (srv.handler.exec o reply w).2 indexName = w indexName ∨ o.written = some indexName ∧
      (srv.handler.exec o reply w).2 indexName =
        KeyedLog.run (o.operations srv) (w indexName) := by
  have heffect : ∀ w', srv.effect w o = some w' → w' indexName = w indexName ∨
      o.written = some indexName ∧
        w' indexName = KeyedLog.run (o.operations srv) (w indexName) := by
    intro w' hw'
    cases o with
    | getIndex | getOrCreateIndex =>
      obtain rfl := Option.some.inj hw'
      exact .inl rfl
    | addDocuments name documents pk =>
      obtain ⟨ops, hops, rfl⟩ := Option.map_eq_some_iff.mp hw'
      by_cases heq : name = indexName
      · subst heq
        refine .inr ⟨rfl, ?_⟩
        rw [MeiliOp.operations, ← (additions_eq_some hops).2]
        exact Function.update_self name _ w
      · exact .inl (Function.update_of_ne (Ne.symm heq) _ w)
    | deleteDocuments name ids =>
      obtain rfl := Option.some.inj hw'
      by_cases heq : name = indexName
      · subst heq
        exact .inr ⟨rfl, Function.update_self name _ w⟩
      · exact .inl (Function.update_of_ne (Ne.symm heq) _ w)
  simp only [handler]
  cases hw' : srv.effect w o with
  | none => exact .inl rfl
  | some w' =>
    show (reply.call w w').2 indexName = w indexName ∨ _
    rw [Reply.call_snd]
    split
    · exact heffect w' hw'
    · exact .inl rfl

namespace DestinationProcessor

variable {srv : SearchServer} {rt : Runtime} {a : MeilisearchAdapter}

/-- The command may change the documents of the index. -/
def Writes (rt : Runtime) (a : MeilisearchAdapter) (indexName : String) : DestinationCommand → Prop
  | .processEvents events => ∃ e ∈ events, a.indexName rt e = some indexName
  | .importData index _ _ => index = indexName
  | .ensureIndex _ _ | .healthCheck | .shutdown => False

/-- The operations of a command on an index. -/
def operations (srv : SearchServer) (rt : Runtime) (a : MeilisearchAdapter) (indexName : String) :
    DestinationCommand → List (KeyedLog.Op String Value)
  | .processEvents events =>
    KeyedLog.regroup (srv.operations a indexName (a.eventsOf rt indexName events))
  | .importData index documents _ =>
    if index = indexName then documents.filterMap (srv.addition indexName) else []
  | .ensureIndex _ _ | .healthCheck | .shutdown => []

theorem operations_of_not_writes {indexName : String} {command : DestinationCommand}
    (h : ¬ Writes rt a indexName command) : operations srv rt a indexName command = [] := by
  cases command with
  | processEvents events =>
    have hnone : a.eventsOf rt indexName events = [] := by
      rw [MeilisearchAdapter.eventsOf, List.filter_eq_nil_iff]
      intro e he hindex
      exact h ⟨e, he, of_decide_eq_true hindex⟩
    rw [operations, hnone]
    rfl
  | importData index documents pk => exact if_neg h
  | ensureIndex | healthCheck | shutdown => rfl

/-- A call that does no more than these operations on each index. -/
def Within (srv : SearchServer) (ops : String → List (KeyedLog.Op String Value)) (o : MeiliOp) :
    Prop :=
  o.operations srv ⊆ ops o.indexName

theorem within_of_nil {ops : String → List (KeyedLog.Op String Value)} {o : MeiliOp}
    (h : o.operations srv = []) : Within srv ops o := by
  rw [Within, h]
  exact List.nil_subset _

theorem only_orFault {α : Type} {S : MeiliOp → Prop} :
    ∀ {p : MeiliProg α}, p.Only S → p.orFault.Only S
  | .done _, _ => trivial
  | .act _ _, h => ⟨h.1, fun answer => only_orFault (h.2 answer)⟩

theorem getOrCreateIndex_within (ops : String → List (KeyedLog.Op String Value))
    (a : MeilisearchAdapter) (indexName : String) (primaryKey : Option String) :
    (a.getOrCreateIndex indexName primaryKey).Only (Within srv ops) := by
  unfold MeilisearchAdapter.getOrCreateIndex
  simp only [Prog.bind_eq]
  apply Prog.only_ite
  · exact Prog.only_bind (fun _ => Prog.only_lift) (Prog.only_perform.mpr (within_of_nil rfl))
  · exact Prog.only_bind (fun _ => Prog.only_lift) (Prog.only_perform.mpr (within_of_nil rfl))

/-- The documents and the ids of a group are its events' operations. -/
theorem batch_within (srv : SearchServer) {indexName : String} {events : List Event}
    {bp : BatchProcessor}
    (hbp : bp = (BatchProcessor.new (a.batchPrimaryKey indexName)).extend events)
    (pk : Option String) :
    MeiliOp.operations srv (.addDocuments indexName bp.documentsToUpsert pk) ⊆
        srv.operations a indexName events ∧
      MeiliOp.operations srv (.deleteDocuments indexName bp.documentsToDelete) ⊆
        srv.operations a indexName events := by
  subst hbp
  constructor
  · intro op hop
    obtain ⟨d, hd, hop⟩ := List.mem_filterMap.mp hop
    obtain ⟨e, he, hd⟩ := List.mem_filterMap.mp hd
    refine List.mem_filterMap.mpr ⟨e, he, ?_⟩
    simp only [SearchServer.operation, hd]
    exact hop
  · intro op hop
    obtain ⟨id, hid, rfl⟩ := List.mem_map.mp hop
    obtain ⟨e, he, hid⟩ := List.mem_filterMap.mp hid
    refine List.mem_filterMap.mpr ⟨e, he, ?_⟩
    have hupsert : BatchProcessor.upsertOf e = none := by
      cases hupsert : BatchProcessor.upsertOf e with
      | none => rfl
      | some d =>
        have hdelete : BatchProcessor.deleteOf (a.batchPrimaryKey indexName) e = none :=
          SearchServer.deleteOf_of_upsertOf hupsert
        cases hdelete.symm.trans hid
    simp only [SearchServer.operation, hupsert]
    rw [show BatchProcessor.deleteOf (a.batchPrimaryKey indexName) e = some id from hid]
    rfl

theorem applyBatch_within {ops : String → List (KeyedLog.Op String Value)} {indexName : String}
    {bp : BatchProcessor} (a : MeilisearchAdapter) (primaryKey : Option String)
    (hadd : Within srv ops (.addDocuments indexName bp.documentsToUpsert a.primaryKey))
    (hdelete : Within srv ops (.deleteDocuments indexName bp.documentsToDelete)) :
    (a.applyBatch bp indexName primaryKey).Only (Within srv ops) := by
  unfold MeilisearchAdapter.applyBatch
  apply Prog.only_ite
  · trivial
  simp only [Prog.bind_eq]
  apply Prog.only_bind _ (getOrCreateIndex_within ops a indexName primaryKey)
  intro _
  apply Prog.only_bind
  · intro result
    unfold MeilisearchAdapter.applyDeletes
    apply Prog.only_ite
    · trivial
    rw [Prog.bind_eq]
    apply Prog.only_bind
    · intro answer
      trivial
    · exact Prog.only_perform.mpr hdelete
  · unfold MeilisearchAdapter.applyUpserts
    apply Prog.only_ite
    · trivial
    rw [Prog.bind_eq]
    apply Prog.only_bind
    · intro answer
      trivial
    · exact Prog.only_perform.mpr hadd

theorem processGroup_within {ops : String → List (KeyedLog.Op String Value)} {indexName : String}
    {events : List Event} (hops : srv.operations a indexName events ⊆ ops indexName)
    (result : SyncResult) :
    (a.processGroup indexName events result).Only (Within srv ops) := by
  unfold MeilisearchAdapter.processGroup
  dsimp only
  have hbp := BatchProcessor.processAll_fst (.new (a.batchPrimaryKey indexName)) events
  generalize (BatchProcessor.new (a.batchPrimaryKey indexName)).processAll events = batch at hbp
  obtain ⟨bp, errors⟩ := batch
  obtain ⟨hadd, hdelete⟩ := batch_within srv hbp a.primaryKey
  apply Prog.only_ite
  · trivial
  rw [Prog.bind_eq]
  apply Prog.only_bind
  · intro batchResult
    trivial
  · exact applyBatch_within a _ (List.Subset.trans hadd hops)
      (List.Subset.trans hdelete hops)

theorem processGroups_within {ops : String → List (KeyedLog.Op String Value)}
    {groups : List (String × List Event)}
    (hops : ∀ group ∈ groups, srv.operations a group.1 group.2 ⊆ ops group.1)
    (result : SyncResult) : (a.processGroups groups result).Only (Within srv ops) := by
  induction groups generalizing result with
  | nil => trivial
  | cons group rest ih =>
    unfold MeilisearchAdapter.processGroups
    rw [Prog.bind_eq]
    apply Prog.only_bind
    · intro result'
      exact ih (fun g hg => hops g (List.mem_cons_of_mem _ hg)) result'
    · exact processGroup_within (hops group List.mem_cons_self) result

theorem importChunks_within {ops : String → List (KeyedLog.Op String Value)} {indexName : String}
    {chunks : List (List Value)} (pk : Option String)
    (hops : chunks.flatten.filterMap (srv.addition indexName) ⊆ ops indexName)
    (result : SyncResult) :
    (MeilisearchAdapter.importChunks indexName pk chunks result).Only (Within srv ops) := by
  induction chunks generalizing result with
  | nil => trivial
  | cons chunk rest ih =>
    rw [List.flatten_cons, List.filterMap_append] at hops
    unfold MeilisearchAdapter.importChunks
    rw [Prog.bind_eq]
    apply Prog.only_bind
    · intro answer
      exact ih (List.Subset.trans (List.subset_append_right _ _) hops) _
    · exact Prog.only_perform.mpr (List.Subset.trans (List.subset_append_left _ _) hops)

/-- Each call of a command does a part of what the command stands for. -/
theorem serve_within (srv : SearchServer) {batchSize : Nat} {healthy : Bool}
    {command : DestinationCommand}
    {p : Prog MeiliOp (fun _ => Result Unit) Fault DestinationResponse}
    (hp : serve rt a batchSize healthy command = some p) :
    p.Only (Within srv fun indexName => operations srv rt a indexName command) := by
  cases command with
  | processEvents events =>
    obtain rfl := Option.some.inj hp
    apply Prog.only_bind
    · intro _
      trivial
    apply only_orFault
    unfold MeilisearchAdapter.processEvents
    rw [Prog.bind_eq]
    apply Prog.only_bind
    · intro _
      trivial
    -- the adapter groups the writes before the deletes, which are the same operations
    apply processGroups_within
    intro group hgroup op hop
    rw [(MeilisearchAdapter.mem_iterate.mp hgroup).1] at hop
    exact KeyedLog.mem_regroup.mpr hop
  | importData index documents pk =>
    obtain rfl := Option.some.inj hp
    apply Prog.only_bind
    · intro _
      trivial
    unfold MeilisearchAdapter.importData
    simp only [Prog.bind_eq]
    apply Prog.only_bind
    · intro _
      split
      · trivial
      · next hzero =>
        apply importChunks_within
        rw [List.flatten_chunks (Nat.pos_of_ne_zero hzero), operations, if_pos rfl]
        exact List.Subset.refl _
    · exact only_orFault (getOrCreateIndex_within _ a index _)
  | ensureIndex name pk =>
    obtain rfl := Option.some.inj hp
    apply Prog.only_bind
    · intro _
      trivial
    exact only_orFault (getOrCreateIndex_within _ a name _)
  | healthCheck =>
    obtain rfl := Option.some.inj hp
    trivial
  | shutdown => cases hp

/-- Whatever fails, and wherever a command is cut short, it has done a part of its operations to an
index and nothing else. -/
theorem wp_serve_partlyRun {batchSize : Nat} {healthy : Bool} {command : DestinationCommand}
    {p : Prog MeiliOp (fun _ => Result Unit) Fault DestinationResponse}
    (hp : serve rt a batchSize healthy command = some p) (indexName : String) (w : Documents) :
    wp srv.handler (fun _ => True) (fun w' => KeyedLog.PartlyRun
        (operations srv rt a indexName command) (w indexName) (w' indexName)) p
      (fun _ w' => KeyedLog.PartlyRun
        (operations srv rt a indexName command) (w indexName) (w' indexName)) w := by
  refine wp_only ?_ (serve_within srv hp) (.refl _ _)
  intro o reply w' ho _ hw'
  rcases srv.exec_cases o reply w' indexName with hsame | ⟨hwritten, heffect⟩
  · rw [hsame]
    exact hw'
  · rw [heffect]
    rw [Within, MeiliOp.indexName_of_written hwritten] at ho
    exact hw'.run ho

/-! ## What a response without failures says -/

/-- The documents after the operations of a command. -/
def Applies (srv : SearchServer) (rt : Runtime) (a : MeilisearchAdapter)
    (command : DestinationCommand) (w w' : Documents) : Prop :=
  ∀ indexName, w' indexName = KeyedLog.run (operations srv rt a indexName command) (w indexName)

/-- A response is made of a sync result, with its counts. -/
theorem wp_response {p : Prog MeiliOp (fun _ => Result Unit) Fault SyncResult} {w : Documents}
    {target target' : Documents → Prop} (h : SearchServer.Honest srv p .new w target)
    (htarget : ∀ w', target w' → target' w') :
    wp srv.handler (fun _ => True) (fun _ => True)
      (p.bind fun syncResult => pure syncResult.response)
      (fun r w' => ∀ response, r = .ok response → response.failedCount = 0 → target' w') w := by
  refine wp.bind h ?_ ?_
  · intro syncResult w' _ hw'
    refine ⟨trivial, ?_⟩
    intro response hok hnone
    obtain rfl := Except.ok.inj hok
    exact htarget w' ((hw' syncResult rfl).2 hnone)
  · intro fault w' _ _ response hok
    cases hok

theorem wp_serve_reported {batchSize : Nat} {healthy : Bool} {command : DestinationCommand}
    {p : Prog MeiliOp (fun _ => Result Unit) Fault DestinationResponse}
    (hp : serve rt a batchSize healthy command = some p) (w : Documents) :
    wp srv.handler (fun _ => True) (fun _ => True) p (fun r w' => ∀ response, r = .ok response →
      response.failedCount = 0 → Applies srv rt a command w w') w := by
  cases command with
  | processEvents events =>
    obtain rfl := Option.some.inj hp
    have hhonest := (SearchServer.honest_processEvents srv rt a events w).orFault
    exact wp_response hhonest fun w' hw' => hw'
  | importData index documents pk =>
    obtain rfl := Option.some.inj hp
    refine wp_response (SearchServer.honest_importData srv a batchSize index documents pk w) ?_
    intro w' hw' indexName
    rw [hw'.eq_change, operations]
    split
    · next heq =>
      subst heq
      exact Function.update_self index _ w
    · next hne => exact Function.update_of_ne (Ne.symm hne) _ w
  | ensureIndex name pk =>
    obtain rfl := Option.some.inj hp
    refine wp.bind (MeiliProg.wp_orFault (Q := fun _ w' => w' = w).mpr
      (SearchServer.wp_getOrCreateIndex srv a name _ w)) ?_ ?_
    · intro _ w' _ hw'
      refine ⟨trivial, ?_⟩
      intro response _ _ indexName
      rw [hw']
      rfl
    · intro e w' _ _ response hok
      cases hok
  | healthCheck =>
    obtain rfl := Option.some.inj hp
    refine ⟨trivial, ?_⟩
    intro response _ _ indexName
    rfl
  | shutdown => cases hp

end DestinationProcessor

end MeiliBridge
