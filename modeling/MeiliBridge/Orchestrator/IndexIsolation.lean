import MeiliBridge.Orchestrator.DestinationProcessor

/-!
# One index apart from the others

The destination processor serves the commands for all indexes from one queue. `index_isolated` says
that the commands for one index do not notice those for the others: take them out of a run, and what
is left is a run in which the index holds the same and its commands are answered the same. That
includes runs with refused calls and runs that are cut short; all that a command for another index
can do is to stop the processor.
-/

set_option autoImplicit false

namespace MeiliBridge

open Interaction Trans

namespace DestinationProcessor

variable {srv : SearchServer} {rt : Runtime} {a : MeilisearchAdapter} {initial : Documents}
  {s s' : State}

/-- The indexes a command addresses. -/
def indexes (rt : Runtime) (a : MeilisearchAdapter) : DestinationCommand → List String
  | .processEvents events => events.filterMap (a.indexName rt)
  | .importData index _ _ => [index]
  | .ensureIndex indexName _ => [indexName]
  | .healthCheck | .shutdown => []

/-- The command addresses this index, or none. -/
def Concerns (rt : Runtime) (a : MeilisearchAdapter) (indexName : String)
    (command : DestinationCommand) : Prop :=
  indexes rt a command = [] ∨ indexName ∈ indexes rt a command

instance (rt : Runtime) (a : MeilisearchAdapter) (indexName : String)
    (command : DestinationCommand) : Decidable (Concerns rt a indexName command) :=
  inferInstanceAs (Decidable (_ ∨ _))

def SingleIndex (rt : Runtime) (a : MeilisearchAdapter) (command : DestinationCommand) : Prop :=
  ∀ x ∈ indexes rt a command, ∀ y ∈ indexes rt a command, x = y

/-- The command and the answer to it. -/
def Served.exchange (e : Served) : DestinationCommand × Answer := (e.command, e.answer)

/-- What is left of a run when the commands for other indexes are taken out of it. -/
structure SameIndex (rt : Runtime) (a : MeilisearchAdapter) (indexName : String) (s t : State) :
    Prop where
  phase : t.phase = s.phase
  documents : t.documents indexName = s.documents indexName
  queue : t.queue = s.queue.filter (Concerns rt a indexName)
  sent : t.sent = s.sent.filter (Concerns rt a indexName)
  served : t.served.map Served.exchange =
    (s.served.filter fun e => Concerns rt a indexName e.command).map Served.exchange

/-- The calls for a list of groups are each for one of their indexes. -/
theorem processGroups_only (a : MeilisearchAdapter) (groups : List (String × List Event))
    (result : SyncResult) :
    (a.processGroups groups result).Only fun o => o.indexName ∈ groups.map Prod.fst := by
  induction groups generalizing result with
  | nil => trivial
  | cons group rest ih =>
    unfold MeilisearchAdapter.processGroups
    rw [Prog.bind_eq]
    apply Prog.only_bind
    · intro result'
      exact (ih result').mono fun _ ho => List.mem_cons_of_mem _ ho
    · refine (a.processGroup_only group.1 group.2 result).mono ?_
      intro o ho
      rw [ho]
      exact List.mem_cons_self

theorem processEvents_only (rt : Runtime) (a : MeilisearchAdapter) (events : List Event) :
    (a.processEvents rt events).Only fun o => o.indexName ∈ events.filterMap (a.indexName rt) := by
  unfold MeilisearchAdapter.processEvents
  rw [Prog.bind_eq]
  apply Prog.only_bind
  · intro result
    trivial
  · refine (processGroups_only a _ .new).mono ?_
    intro o ho
    obtain ⟨group, hgroup, hname⟩ := List.mem_map.mp ho
    obtain ⟨hevents, hne⟩ := MeilisearchAdapter.mem_iterate.mp hgroup
    obtain ⟨e, he⟩ := List.exists_mem_of_ne_nil _ hne
    rw [hevents] at he
    obtain ⟨hmem, hindex⟩ := List.mem_filter.mp he
    rw [← hname]
    exact List.mem_filterMap.mpr ⟨e, hmem, of_decide_eq_true hindex⟩

theorem importData_only (a : MeilisearchAdapter) (batchSize : Nat) (indexName : String)
    (documents : List Value) (pk : Option String) :
    (a.importData batchSize indexName documents pk).Only fun o => o.indexName = indexName := by
  have hchunks : ∀ chunks result, (MeilisearchAdapter.importChunks indexName pk chunks result).Only
      fun o => o.indexName = indexName := by
    intro chunks
    induction chunks with
    | nil => exact fun _ => trivial
    | cons chunk rest ih =>
      intro result
      unfold MeilisearchAdapter.importChunks
      rw [Prog.bind_eq]
      exact Prog.only_bind (fun answer => ih _) (Prog.only_perform.mpr rfl)
  unfold MeilisearchAdapter.importData
  simp only [Prog.bind_eq]
  apply Prog.only_bind
  · intro _
    apply Prog.only_ite
    · trivial
    · exact hchunks _ .new
  · exact only_orFault (a.getOrCreateIndex_only indexName _)

theorem serve_addresses {batchSize : Nat} {healthy : Bool} {command : DestinationCommand}
    {p : Prog MeiliOp (fun _ => Result Unit) Fault DestinationResponse}
    (hp : serve rt a batchSize healthy command = some p) :
    p.Only fun o => o.indexName ∈ indexes rt a command := by
  cases command with
  | processEvents events =>
    obtain rfl := Option.some.inj hp
    apply Prog.only_bind
    · intro _
      trivial
    apply only_orFault
    exact processEvents_only rt a events
  | importData index documents pk =>
    obtain rfl := Option.some.inj hp
    apply Prog.only_bind
    · intro _
      trivial
    exact (importData_only a batchSize index documents pk).mono
      fun o ho => List.mem_singleton.mpr ho
  | ensureIndex name pk =>
    obtain rfl := Option.some.inj hp
    apply Prog.only_bind
    · intro _
      trivial
    apply only_orFault
    exact (a.getOrCreateIndex_only name _).mono fun o ho => List.mem_singleton.mpr ho
  | healthCheck =>
    obtain rfl := Option.some.inj hp
    trivial
  | shutdown => cases hp

/-- The server answers a call for an index by what that index holds, and by nothing else. -/
theorem simulates_index (srv : SearchServer) (indexName : String) :
    Simulates srv.handler (fun _ => True) srv.handler (fun _ => True)
      (fun o => o.indexName = indexName)
      (fun (w v : Documents) => v indexName = w indexName) := by
  intro o reply w v ho _ hwv
  refine ⟨reply, trivial, ?_⟩
  have heffect : (srv.effect w o = none ∧ srv.effect v o = none) ∨ ∃ w' v',
      srv.effect w o = some w' ∧ srv.effect v o = some v' ∧ v' indexName = w' indexName := by
    cases o with
    | getIndex | getOrCreateIndex => exact .inr ⟨w, v, rfl, rfl, hwv⟩
    | addDocuments name documents pk =>
      obtain rfl : name = indexName := ho
      simp only [SearchServer.effect]
      cases srv.additions name documents with
      | none => exact .inl ⟨rfl, rfl⟩
      | some ops =>
        refine .inr ⟨_, _, rfl, rfl, ?_⟩
        simp only [SearchServer.change, Function.update_self, hwv]
    | deleteDocuments name ids =>
      obtain rfl : name = indexName := ho
      refine .inr ⟨_, _, rfl, rfl, ?_⟩
      simp only [SearchServer.change, Function.update_self, hwv]
  simp only [SearchServer.handler]
  rcases heffect with ⟨hw, hv⟩ | ⟨w', v', hw, hv, hsame⟩
  · rw [hw, hv]
    exact ⟨rfl, hwv⟩
  · rw [hw, hv]
    cases reply with
    | succeeds => exact ⟨rfl, hsame⟩
    | fails e applied =>
      cases applied with
      | true => exact ⟨rfl, hsame⟩
      | false => exact ⟨rfl, hwv⟩

/-- All calls of a command that concerns the index, and no other, are for the index. -/
theorem serve_only_index {batchSize : Nat} {healthy : Bool} {command : DestinationCommand}
    {p : Prog MeiliOp (fun _ => Result Unit) Fault DestinationResponse} {indexName : String}
    (hp : serve rt a batchSize healthy command = some p) (hsingle : SingleIndex rt a command)
    (hconcerns : Concerns rt a indexName command) :
    p.Only fun o => o.indexName = indexName := by
  refine (serve_addresses hp).mono ?_
  intro o ho
  rcases hconcerns with hnone | hmem
  · rw [hnone] at ho
    cases ho
  · exact hsingle _ ho _ hmem

theorem not_writes_of_foreign {indexName : String} {command : DestinationCommand}
    (h : ¬ Concerns rt a indexName command) : ¬ Writes rt a indexName command := by
  intro hwrites
  apply h
  right
  cases command with
  | processEvents events => exact List.mem_filterMap.mpr hwrites
  | importData index documents pk => exact List.mem_singleton.mpr hwrites.symm
  | ensureIndex | healthCheck | shutdown => cases hwrites

/-- The sends of commands for one index each. -/
def SendsSingle (rt : Runtime) (a : MeilisearchAdapter) (_ : State) : Label → Prop
  | .send command => SingleIndex rt a command
  | _ => True

variable {indexName : String} {t : State} {start : Documents}

/-- The head of the queue, where it concerns the index. -/
theorem SameIndex.head_own {command : DestinationCommand} {rest : List DestinationCommand}
    (h : SameIndex rt a indexName s t) (hqueue : s.queue = command :: rest)
    (hconcerns : Concerns rt a indexName command) :
    t.queue = command :: rest.filter (Concerns rt a indexName) := by
  rw [h.queue, hqueue]
  simp [hconcerns]

theorem SameIndex.serve_own {command : DestinationCommand} {rest : List DestinationCommand}
    {phase : Phase} {answer : Answer} {w v : Documents} (h : SameIndex rt a indexName s t)
    (hconcerns : Concerns rt a indexName command) (hwv : v indexName = w indexName) :
    SameIndex rt a indexName (s.serveHead phase rest command answer w)
      (t.serveHead phase (rest.filter (Concerns rt a indexName)) command answer v) where
  phase := rfl
  documents := hwv
  queue := rfl
  sent := h.sent
  served := by
    have hserved := h.served
    simp [State.serveHead, hserved, hconcerns, Served.exchange]

/-- A foreign command is served: at most the phase changes. -/
theorem SameIndex.serve_foreign {command : DestinationCommand} {rest : List DestinationCommand}
    {phase : Phase} {answer : Answer} {w : Documents} (h : SameIndex rt a indexName s t)
    (hqueue : s.queue = command :: rest) (hforeign : ¬ Concerns rt a indexName command)
    (hw : w indexName = s.documents indexName) :
    SameIndex rt a indexName (s.serveHead phase rest command answer w) { t with phase } where
  phase := rfl
  documents := h.documents.trans hw.symm
  queue := by
    show t.queue = rest.filter (Concerns rt a indexName)
    rw [h.queue, hqueue]
    simp [hforeign]
  sent := h.sent
  served := by
    have hserved := h.served
    simp [State.serveHead, hserved, hforeign]

/-- The run without the foreign commands goes on, or it takes a shutdown. -/
theorem reachable_phase {phase : Phase} (ht : (machine srv rt a start).Reachable t)
    (hphase : t.phase = .serving) (hnext : phase = .serving ∨ phase = .stopped) :
    (machine srv rt a start).Reachable { t with phase } := by
  rcases hnext with rfl | rfl
  · obtain ⟨tphase, queue, documents, sent, served⟩ := t
    obtain rfl : tphase = .serving := hphase
    exact ht
  · exact ht.step (l := .shutdown) (.shutdown (by rw [hphase]; decide))

theorem phaseAfter_cases (r : Except Fault DestinationResponse) :
    phaseAfter r = .serving ∨ phaseAfter r = .stopped := by
  cases r with
  | ok response => exact .inl rfl
  | error fault => cases fault <;> simp [phaseAfter]

/-- The commands in the queue are those that were let in. -/
theorem queue_single {l : Label} (hqueue : ∀ command ∈ s.queue, SingleIndex rt a command)
    (hlabel : SendsSingle rt a s l) (hs : Step srv rt a s l s') :
    ∀ command ∈ s'.queue, SingleIndex rt a command := by
  have htail : ∀ {command : DestinationCommand} {rest : List DestinationCommand},
      s.queue = command :: rest → ∀ c ∈ rest, SingleIndex rt a c :=
    fun hcons c hc => hqueue c (hcons ▸ List.mem_cons_of_mem _ hc)
  cases hs with
  | connect | shutdown => exact hqueue
  | send =>
    intro c hc
    rcases List.mem_append.mp hc with hold | hnew
    · exact hqueue c hold
    · rw [List.mem_singleton.mp hnew]
      exact hlabel
  | serve _ hcons | shutdownCommand _ hcons | abort _ hcons => exact htail hcons

/-- One step, with or without its part in the run of the index. -/
theorem SameIndex.step {l : Label} (hsame : SameIndex rt a indexName s t)
    (ht : (machine srv rt a start).Reachable t)
    (hsingle : ∀ command ∈ s.queue, SingleIndex rt a command) (hs : Step srv rt a s l s') :
    ∃ t', (machine srv rt a start).Reachable t' ∧ SameIndex rt a indexName s' t' := by
  have hhead : ∀ {command : DestinationCommand} {rest : List DestinationCommand},
      s.queue = command :: rest → SingleIndex rt a command :=
    fun hqueue => hsingle _ (hqueue ▸ List.mem_cons_self)
  cases hs with
  | @connect connected hphase =>
    have hconnects : Step srv rt a t (.connect connected) _ := .connect (hsame.phase.trans hphase)
    exact ⟨_, ht.step hconnects, rfl, hsame.documents, hsame.queue, hsame.sent, hsame.served⟩
  | @send command hphase hroom =>
    -- a command for another index is not sent in the matching run
    by_cases hconcerns : Concerns rt a indexName command
    · have hlength : t.queue.length < capacity := by
        rw [hsame.queue]
        exact Nat.lt_of_le_of_lt (List.length_filter_le _ _) hroom
      have hgoes : t.phase ≠ .stopped := by rwa [hsame.phase]
      have hsends : Step srv rt a t (.send command) _ := .send hgoes hlength
      refine ⟨_, ht.step hsends, hsame.phase, hsame.documents, ?_, ?_, hsame.served⟩
      · simp [hsame.queue, hconcerns]
      · simp [hsame.sent, hconcerns]
    · refine ⟨t, ht, hsame.phase, hsame.documents, ?_, ?_, hsame.served⟩
      · simp [hsame.queue, hconcerns]
      · simp [hsame.sent, hconcerns]
  | @serve command rest batchSize healthy p r w hphase hqueue hp hruns =>
    have hserving := hsame.phase.trans hphase
    -- its own command finds the same documents and gets the same answers; another one can only stop
    -- the processor
    by_cases hconcerns : Concerns rt a indexName command
    · obtain ⟨v, hv, hwv⟩ := hruns.transport (simulates_index srv indexName)
        (serve_only_index hp (hhead hqueue) hconcerns) hsame.documents
      exact ⟨_, ht.step (.serve hserving (hsame.head_own hqueue hconcerns) hp hv),
        hsame.serve_own hconcerns hwv⟩
    · have hmade := (faithful_of_runs hp hruns).made indexName
      rw [operations_of_not_writes (not_writes_of_foreign hconcerns)] at hmade
      exact ⟨_, reachable_phase ht hserving (phaseAfter_cases r),
        hsame.serve_foreign hqueue hconcerns hmade.eq_of_nil⟩
  | shutdownCommand hphase hqueue =>
    have hconcerns : Concerns rt a indexName .shutdown := .inl rfl
    exact ⟨_, ht.step (.shutdownCommand (hsame.phase.trans hphase)
      (hsame.head_own hqueue hconcerns)), hsame.serve_own hconcerns hsame.documents⟩
  | @abort command rest batchSize healthy p w hphase hqueue hp hvisits =>
    have hserving := hsame.phase.trans hphase
    by_cases hconcerns : Concerns rt a indexName command
    · obtain ⟨v, hv, hwv⟩ := hvisits.transport (simulates_index srv indexName)
        (serve_only_index hp (hhead hqueue) hconcerns) hsame.documents
      exact ⟨_, ht.step (.abort hserving (hsame.head_own hqueue hconcerns) hp hv),
        hsame.serve_own hconcerns hwv⟩
    · have hmade := (faithful_of_visits hp hvisits).made indexName
      rw [operations_of_not_writes (not_writes_of_foreign hconcerns)] at hmade
      exact ⟨_, reachable_phase ht hserving (.inr rfl),
        hsame.serve_foreign hqueue hconcerns hmade.eq_of_nil⟩
  | shutdown hphase =>
    have hgoes : t.phase ≠ .stopped := by rwa [hsame.phase]
    exact ⟨_, ht.step (.shutdown hgoes), rfl, hsame.documents, hsame.queue, hsame.sent,
      hsame.served⟩

/-- **What happens to an index is a run without the commands for the others.** Whatever those meet,
and however they end, the index holds and its commands are answered what a processor that never got
them could have left there and answered. -/
theorem index_isolated (srv : SearchServer) (rt : Runtime) (a : MeilisearchAdapter)
    (initial start : Documents) (indexName : String) (hstart : start indexName = initial indexName)
    (s : State)
    (h : ((machine srv rt a initial).restrict (SendsSingle rt a)).Reachable s) :
    ∃ t, (machine srv rt a start).Reachable t ∧ SameIndex rt a indexName s t := by
  have hinv := by
    refine h.invariant (I := fun s => (∀ command ∈ s.queue, SingleIndex rt a command) ∧
      ∃ t, (machine srv rt a start).Reachable t ∧ SameIndex rt a indexName s t) ?_ ?_
    · rintro s rfl
      refine ⟨?_, ⟨.connecting, [], start, [], []⟩, .init rfl, rfl, hstart, rfl, rfl, rfl⟩
      intro command hmem
      cases hmem
    · rintro s l s' ⟨hsingle, t, ht, hsame⟩ ⟨hlabel, hs⟩
      exact ⟨queue_single hsingle hlabel hs, hsame.step ht hsingle hs⟩
  exact hinv.2

/-- The index of films has nothing to do with the import. -/
theorem index_isolated_films :
    ∃ t, (machine idServer ⟨id, id, ""⟩ idAdapter noDocuments).Reachable t ∧
      SameIndex ⟨id, id, ""⟩ idAdapter "films" bookImported t ∧ t.served = [] := by
  have hsingle : ∀ name : String, ∀ x ∈ [name], ∀ y ∈ [name], x = y := by
    intro name x hx y hy
    rw [List.mem_singleton.mp hx, List.mem_singleton.mp hy]
  have h := reachable_bookImported (SendsSingle ⟨id, id, ""⟩ idAdapter) (by
    intro s l hl
    simp only [List.mem_cons, List.not_mem_nil, or_false] at hl
    rcases hl with rfl | rfl | rfl | rfl
    · trivial
    · exact hsingle "books"
    · exact hsingle "films"
    · trivial)
  obtain ⟨t, ht, hsame⟩ := index_isolated idServer ⟨id, id, ""⟩ idAdapter noDocuments noDocuments
    "films" rfl bookImported h
  exact ⟨t, ht, hsame, List.map_eq_nil_iff.mp hsame.served⟩

end DestinationProcessor

end MeiliBridge
