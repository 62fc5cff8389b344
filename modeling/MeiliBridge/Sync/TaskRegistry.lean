import MeiliBridge.Sync.TaskManager

/-!
# What holds of the task registry

Between two commands the statuses are those of the configured tasks. During a command the two differ
by the task that is being created or deleted, whichever direct calls come in between.
-/

set_option autoImplicit false

namespace MeiliBridge

namespace SyncTaskManager

/-! ## Changes of one status -/

/-- The id stays, a task fails with more than ten errors only, and only a running one is paused. -/
structure Evolves (status status' : TaskStatus) : Prop where
  taskId : status'.taskId = status.taskId
  failed : status'.state = .failed →
    status.state = .failed ∧ status.errorCount ≤ status'.errorCount ∨ 10 < status'.errorCount
  paused : status'.state = .paused → status.state = .paused ∨ status.state = .running

theorem Evolves.refl (status : TaskStatus) : Evolves status status :=
  ⟨rfl, fun h => .inl ⟨h, Nat.le_refl _⟩, .inl⟩

/-- A state that is neither failed nor paused may be entered from everywhere. -/
theorem Evolves.enter {status status' : TaskStatus} (hid : status'.taskId = status.taskId)
    (hfailed : status'.state ≠ .failed) (hpaused : status'.state ≠ .paused) :
    Evolves status status' :=
  ⟨hid, fun h => absurd h hfailed, fun h => absurd h hpaused⟩

variable (now : Time) (status : TaskStatus)

theorem evolves_setRunning : Evolves status (setRunning now status) := by
  rw [setRunning]
  split
  · exact .refl status
  · exact .enter rfl (by simp) (by simp)

theorem evolves_setIdle : Evolves status (setIdle now status) :=
  .enter rfl (by simp [setIdle]) (by simp [setIdle])

theorem evolves_setPaused : Evolves status (setPaused now status) := by
  rw [setPaused]
  split
  · next hrunning => exact ⟨rfl, fun h => (by cases h), fun _ => .inr hrunning⟩
  · exact .refl status

theorem evolves_setResumed : Evolves status (setResumed now status) := by
  rw [setResumed]
  split
  · exact .enter rfl (by simp) (by simp)
  · exact .refl status

theorem evolves_setProgress (position : Position) (processedCount : Nat) :
    Evolves status (setProgress now position processedCount status) :=
  ⟨rfl, fun h => .inl ⟨h, Nat.le_refl _⟩, .inl⟩

theorem evolves_addError (error : String) : Evolves status (addError now error status) := by
  rw [addError]
  dsimp only
  split
  · next hmany => exact ⟨rfl, fun _ => .inr hmany, fun h => by cases h⟩
  · exact ⟨rfl, fun h => .inl ⟨h, Nat.le_succ _⟩, .inl⟩

/-! ## Changes of the map -/

theorem mem_modify {statuses : Statuses} {taskId t : String} {f : TaskStatus → TaskStatus} :
    t ∈ modify statuses taskId f ↔ t ∈ statuses := by
  rw [modify]
  cases hlookup : statuses.lookup taskId with
  | none => exact Iff.rfl
  | some status =>
    rw [AList.mem_insert, or_iff_right_of_imp]
    rintro rfl
    exact AList.lookup_isSome.mp (Option.isSome_of_eq_some hlookup)

theorem lookup_modify {statuses : Statuses} {taskId t : String} {f : TaskStatus → TaskStatus}
    {status' : TaskStatus} (h : (modify statuses taskId f).lookup t = some status') :
    statuses.lookup t = some status' ∨ ∃ status, statuses.lookup t = some status ∧
      status' = f status := by
  rw [modify] at h
  cases hlookup : statuses.lookup taskId with
  | none =>
    rw [hlookup] at h
    exact .inl h
  | some status =>
    rw [hlookup] at h
    by_cases heq : t = taskId
    · subst heq
      rw [AList.lookup_insert] at h
      exact .inr ⟨status, hlookup, (Option.some.inj h).symm⟩
    · rw [AList.lookup_insert_ne heq] at h
      exact .inl h

/-- Every status comes from one that it evolves from. -/
def Updated (statuses statuses' : Statuses) : Prop :=
  (∀ t, t ∈ statuses' ↔ t ∈ statuses) ∧
  ∀ t status', statuses'.lookup t = some status' →
    ∃ status, statuses.lookup t = some status ∧ Evolves status status'

theorem Updated.refl (statuses : Statuses) : Updated statuses statuses :=
  ⟨fun _ => Iff.rfl, fun _ status' h => ⟨status', h, .refl status'⟩⟩

theorem updated_modify {f : TaskStatus → TaskStatus} (hf : ∀ status, Evolves status (f status))
    (statuses : Statuses) (taskId : String) : Updated statuses (modify statuses taskId f) := by
  refine ⟨fun t => mem_modify, fun t status' h => ?_⟩
  rcases lookup_modify h with hold | ⟨status, hstatus, rfl⟩
  · exact ⟨status', hold, .refl status'⟩
  · exact ⟨status, hstatus, hf status⟩

/-! ## What a step does -/

/-- The changes of the registry that a step makes -/
inductive Changes (s : State) : State → Prop
  | update (statuses : Statuses) (replies : List (Result Unit)) (h : Updated s.statuses statuses) :
    Changes s { s with statuses := statuses, replies := replies }
  | addTask (task : SyncTaskConfig) (hpending : s.pending = none) (hnew : task.table ∉ s.tables) :
    Changes s { s with
      syncTasks := s.syncTasks ++ [task]
      pending := some (.createStatus task) }
  | addStatus (task : SyncTaskConfig) (startedAt lastUpdated : Time)
      (replies : List (Result Unit)) (hpending : s.pending = some (.createStatus task)) :
    Changes s { s with
      statuses := s.statuses.insert task.table (newStatus task startedAt lastUpdated)
      pending := none
      replies := replies }
  | beginDelete (taskId : String) (statuses : Statuses) (hpending : s.pending = none)
      (h : Updated s.statuses statuses) :
    Changes s { s with statuses := statuses, pending := some (.deleteConfig taskId) }
  | removeTask (taskId : String) (hpending : s.pending = some (.deleteConfig taskId)) :
    Changes s { s with
      syncTasks := s.syncTasks.filter fun t => t.table != taskId
      pending := some (.deleteStatus taskId) }
  | removeStatus (taskId : String) (replies : List (Result Unit))
      (hpending : s.pending = some (.deleteStatus taskId)) :
    Changes s { s with
      statuses := s.statuses.erase taskId
      pending := none
      replies := replies }

theorem addTask_cases (syncTasks : List SyncTaskConfig) (task : SyncTaskConfig) :
    (task.table ∉ syncTasks.map SyncTaskConfig.table ∧
      addTask syncTasks task = .ok (syncTasks ++ [task])) ∨
    ∃ e, addTask syncTasks task = .error e := by
  rw [addTask]
  split
  · exact .inr ⟨_, rfl⟩
  · next hnone =>
    refine .inl ⟨fun hmem => hnone ?_, rfl⟩
    obtain ⟨t, ht, htable⟩ := List.mem_map.mp hmem
    exact List.any_eq_true.mpr ⟨t, ht, beq_iff_eq.mpr htable⟩

theorem direct_changes (s : State) {f : TaskStatus → TaskStatus}
    (hf : ∀ status, Evolves status (f status)) (taskId : String) :
    Changes s (s.direct (modifyFound s.statuses taskId f)) := by
  rw [modifyFound]
  split
  · exact .update _ s.replies (updated_modify hf _ taskId)
  · exact .update _ s.replies (.refl _)

theorem handle_changes {s : State} (hpending : s.pending = none) (now : Time) (c : TaskCommand) :
    Changes s (handle s now c) := by
  cases c with
  | start taskId => exact .update _ s.replies (updated_modify (evolves_setRunning now) _ taskId)
  | stop taskId => exact .update _ s.replies (updated_modify (evolves_setIdle now) _ taskId)
  | pause taskId => exact .update _ s.replies (updated_modify (evolves_setPaused now) _ taskId)
  | resume taskId => exact .update _ s.replies (updated_modify (evolves_setResumed now) _ taskId)
  | createTask task =>
    rw [handle]
    rcases addTask_cases s.syncTasks task with ⟨hnew, heq⟩ | ⟨e, heq⟩
    · rw [heq]
      exact .addTask task hpending hnew
    · rw [heq]
      exact .update _ _ (.refl _)
  | deleteTask taskId =>
    exact .beginDelete taskId _ hpending (updated_modify (evolves_setIdle now) _ taskId)

theorem step_changes {s s' : State} {l : Label} (h : step s l = some s') : Changes s s' := by
  cases l with
  | command c now =>
    rw [step] at h
    split at h
    · next hpending =>
      obtain rfl := Option.some.inj h
      exact handle_changes hpending now c
    · cases h
  | proceed startedAt lastUpdated =>
    rw [step] at h
    split at h
    · next pending hpending =>
      obtain rfl := Option.some.inj h
      cases pending with
      | createStatus task => exact .addStatus task _ _ _ hpending
      | deleteConfig taskId => exact .removeTask taskId hpending
      | deleteStatus taskId => exact .removeStatus taskId _ hpending
    · cases h
  | updateTaskProgress taskId position processedCount now =>
    obtain rfl := Option.some.inj h
    exact direct_changes s (fun status => evolves_setProgress now status position processedCount) _
  | reportTaskError taskId error now =>
    obtain rfl := Option.some.inj h
    exact direct_changes s (fun status => evolves_addError now status error) _

/-! ## The invariant -/

/-- The statuses are those of the tasks, but for the one that a command is at. -/
def Matching (s : State) : Prop :=
  match s.pending with
  | none | some (.deleteConfig _) => ∀ t, t ∈ s.statuses ↔ t ∈ s.tables
  | some (.createStatus task) =>
    task.table ∈ s.tables ∧ ∀ t, t ∈ s.statuses ↔ t ∈ s.tables ∧ t ≠ task.table
  | some (.deleteStatus taskId) => ∀ t, t ∈ s.tables ↔ t ∈ s.statuses ∧ t ≠ taskId

structure Registry (s : State) : Prop where
  nodup : s.tables.Nodup
  taskId : ∀ t status, s.statuses.lookup t = some status → status.taskId = t
  failed : ∀ t status, s.statuses.lookup t = some status → status.state = .failed →
    10 < status.errorCount
  matching : Matching s

variable {s s' : State}

theorem Registry.update (hs : Registry s) {statuses : Statuses} (h : Updated s.statuses statuses)
    (replies : List (Result Unit)) :
    Registry { s with statuses := statuses, replies := replies } := by
  refine ⟨hs.nodup, fun t status' hlookup => ?_, fun t status' hlookup hfailed => ?_, ?_⟩
  · obtain ⟨status, hold, hevolves⟩ := h.2 t status' hlookup
    exact hevolves.taskId.trans (hs.taskId t status hold)
  · obtain ⟨status, hold, hevolves⟩ := h.2 t status' hlookup
    rcases hevolves.failed hfailed with ⟨hbefore, hle⟩ | hmany
    · exact Nat.lt_of_lt_of_le (hs.failed t status hold hbefore) hle
    · exact hmany
  · have hmatching := hs.matching
    simp only [Matching, State.tables, h.1] at hmatching ⊢
    exact hmatching

theorem Registry.addTask (hs : Registry s) {task : SyncTaskConfig} (hpending : s.pending = none)
    (hnew : task.table ∉ s.tables) :
    Registry { s with
      syncTasks := s.syncTasks ++ [task]
      pending := some (.createStatus task) } := by
  have hkeys : ∀ t, t ∈ s.statuses ↔ t ∈ s.tables := by
    have hmatching := hs.matching
    rwa [Matching, hpending] at hmatching
  have htables : (s.syncTasks ++ [task]).map SyncTaskConfig.table = s.tables ++ [task.table] :=
    List.map_append
  refine ⟨?_, hs.taskId, hs.failed, ?_, fun t => ?_⟩
  · rw [State.tables, htables, List.nodup_append]
    refine ⟨hs.nodup, List.nodup_singleton _, ?_⟩
    rintro t ht t' ht' rfl
    exact hnew (List.mem_singleton.mp ht' ▸ ht)
  · rw [State.tables, htables]
    exact List.mem_append_right _ List.mem_cons_self
  · rw [State.tables, htables, hkeys, List.mem_append, List.mem_singleton]
    constructor
    · intro ht
      exact ⟨.inl ht, fun heq => hnew (heq ▸ ht)⟩
    · rintro ⟨ht | ht, hne⟩
      · exact ht
      · exact absurd ht hne

theorem Registry.addStatus (hs : Registry s) {task : SyncTaskConfig} (startedAt lastUpdated : Time)
    (replies : List (Result Unit)) (hpending : s.pending = some (.createStatus task)) :
    Registry { s with
      statuses := s.statuses.insert task.table (newStatus task startedAt lastUpdated)
      pending := none
      replies := replies } := by
  have hmatching := hs.matching
  rw [Matching, hpending] at hmatching
  obtain ⟨hmem, hkeys⟩ := hmatching
  refine ⟨hs.nodup, fun t status h => ?_, fun t status h hfailed => ?_, fun t => ?_⟩
  · rcases Dict.lookup_of_insert h with ⟨rfl, rfl⟩ | hold
    · rfl
    · exact hs.taskId t status hold
  · rcases Dict.lookup_of_insert h with ⟨rfl, rfl⟩ | hold
    · cases hfailed
    · exact hs.failed t status hold hfailed
  · change t ∈ s.statuses.insert task.table _ ↔ t ∈ s.tables
    rw [AList.mem_insert, hkeys]
    constructor
    · rintro (rfl | ht)
      · exact hmem
      · exact ht.1
    · intro ht
      by_cases heq : t = task.table
      · exact .inl heq
      · exact .inr ⟨ht, heq⟩

theorem Registry.removeTask (hs : Registry s) {taskId : String}
    (hpending : s.pending = some (.deleteConfig taskId)) :
    Registry { s with
      syncTasks := s.syncTasks.filter fun t => t.table != taskId
      pending := some (.deleteStatus taskId) } := by
  have hkeys : ∀ t, t ∈ s.statuses ↔ t ∈ s.tables := by
    have hmatching := hs.matching
    rwa [Matching, hpending] at hmatching
  refine ⟨?_, hs.taskId, hs.failed, fun t => ?_⟩
  · exact hs.nodup.sublist (List.filter_sublist.map _)
  · rw [hkeys, State.tables, State.tables, List.mem_map, List.mem_map]
    constructor
    · rintro ⟨task, htask, rfl⟩
      obtain ⟨hmem, hne⟩ := List.mem_filter.mp htask
      exact ⟨⟨task, hmem, rfl⟩, bne_iff_ne.mp hne⟩
    · rintro ⟨⟨task, hmem, rfl⟩, hne⟩
      exact ⟨task, List.mem_filter.mpr ⟨hmem, bne_iff_ne.mpr hne⟩, rfl⟩

theorem Registry.removeStatus (hs : Registry s) {taskId : String} (replies : List (Result Unit))
    (hpending : s.pending = some (.deleteStatus taskId)) :
    Registry { s with
      statuses := s.statuses.erase taskId
      pending := none
      replies := replies } := by
  have hkeys : ∀ t, t ∈ s.tables ↔ t ∈ s.statuses ∧ t ≠ taskId := by
    have hmatching := hs.matching
    rwa [Matching, hpending] at hmatching
  refine ⟨hs.nodup, fun t status h => hs.taskId t status (Dict.lookup_of_erase h),
    fun t status h => hs.failed t status (Dict.lookup_of_erase h), fun t => ?_⟩
  change t ∈ s.statuses.erase taskId ↔ t ∈ s.tables
  rw [AList.mem_erase, hkeys, and_comm]

theorem Registry.changes (hs : Registry s) (h : Changes s s') : Registry s' := by
  cases h with
  | update statuses replies h => exact hs.update h replies
  | addTask task hpending hnew => exact hs.addTask hpending hnew
  | addStatus task startedAt lastUpdated replies hpending =>
    exact hs.addStatus startedAt lastUpdated replies hpending
  | beginDelete taskId statuses hpending h =>
    obtain ⟨hnodup, hid, hfailed, hmatching⟩ := hs.update h s.replies
    refine ⟨hnodup, hid, hfailed, ?_⟩
    rw [Matching] at hmatching ⊢
    dsimp only at hmatching ⊢
    rwa [hpending] at hmatching
  | removeTask taskId hpending => exact hs.removeTask hpending
  | removeStatus taskId replies hpending => exact hs.removeStatus replies hpending

variable {clock : SyncTaskConfig → Time × Time} {syncTasks : List SyncTaskConfig}

theorem mem_foldl_enterTask (statuses : Statuses) (t : String) :
    t ∈ syncTasks.foldl (enterTask clock) statuses ↔
      t ∈ statuses ∨ t ∈ syncTasks.map SyncTaskConfig.table := by
  induction syncTasks generalizing statuses with
  | nil => simp
  | cons task rest ih =>
    rw [List.foldl_cons, ih, enterTask, AList.mem_insert, List.map_cons, List.mem_cons]
    constructor
    · rintro ((rfl | ht) | ht)
      · exact .inr (.inl rfl)
      · exact .inl ht
      · exact .inr (.inr ht)
    · rintro (ht | rfl | ht)
      · exact .inl (.inr ht)
      · exact .inl (.inl rfl)
      · exact .inr ht

theorem lookup_foldl_enterTask {statuses : Statuses} {t : String} {status : TaskStatus}
    (h : (syncTasks.foldl (enterTask clock) statuses).lookup t = some status) :
    statuses.lookup t = some status ∨ status.taskId = t ∧ status.state = .idle := by
  induction syncTasks generalizing statuses with
  | nil => exact .inl h
  | cons task rest ih =>
    rcases ih h with hold | hnew
    · rcases Dict.lookup_of_insert hold with ⟨rfl, rfl⟩ | hold
      · exact .inr ⟨rfl, rfl⟩
      · exact .inl hold
    · exact .inr hnew

theorem registry_begun (hnodup : (syncTasks.map SyncTaskConfig.table).Nodup) :
    Registry (begun clock syncTasks) := by
  have hidle : ∀ t status, (initialStatuses clock syncTasks).lookup t = some status →
      status.taskId = t ∧ status.state = .idle := by
    intro t status h
    rcases lookup_foldl_enterTask h with hempty | hidle
    · cases hempty
    · exact hidle
  refine ⟨hnodup, fun t status h => (hidle t status h).1, fun t status h hfailed => ?_, fun t => ?_⟩
  · rw [(hidle t status h).2] at hfailed
    cases hfailed
  · exact (mem_foldl_enterTask ∅ t).trans (or_iff_right (AList.notMem_empty t))

theorem registry_reachable (hnodup : (syncTasks.map SyncTaskConfig.table).Nodup)
    (h : (machine clock syncTasks).Reachable s) : Registry s := by
  apply h.invariant
  · intro s hs
    rw [hs]
    exact registry_begun hnodup
  · intro s l s' hs hstep
    exact hs.changes (step_changes hstep)

/-! ## Pausing -/

/-- A status is paused only if it has been paused before, or running. -/
def PausesRunning (s s' : State) : Prop :=
  ∀ t status', s'.statuses.lookup t = some status' → status'.state = .paused →
    ∃ status, s.statuses.lookup t = some status ∧
      (status.state = .paused ∨ status.state = .running)

theorem Updated.pausesRunning {statuses : Statuses} (h : Updated s.statuses statuses)
    (hs' : s'.statuses = statuses) : PausesRunning s s' := by
  intro t status' hlookup hpaused
  rw [hs'] at hlookup
  obtain ⟨status, hold, hevolves⟩ := h.2 t status' hlookup
  exact ⟨status, hold, hevolves.paused hpaused⟩

theorem Changes.pausesRunning (h : Changes s s') : PausesRunning s s' := by
  cases h with
  | update statuses replies h | beginDelete taskId statuses hpending h =>
    exact h.pausesRunning rfl
  | addTask task hpending hnew | removeTask taskId hpending =>
    exact (Updated.refl s.statuses).pausesRunning rfl
  | addStatus task startedAt lastUpdated replies hpending =>
    intro t status' hlookup hpaused
    rcases Dict.lookup_of_insert hlookup with ⟨rfl, rfl⟩ | hold
    · cases hpaused
    · exact ⟨status', hold, .inl hpaused⟩
  | removeStatus taskId replies hpending =>
    intro t status' hlookup hpaused
    exact ⟨status', Dict.lookup_of_erase hlookup, .inl hpaused⟩

/-- Between two commands the statuses are exactly those of the tasks, each of which is there once;
at every point a status has its key as its id, and a task is failed with more than ten errors only;
and no step pauses a task that is not running. -/
theorem registry_invariant (hnodup : (syncTasks.map SyncTaskConfig.table).Nodup)
    (h : (machine clock syncTasks).Reachable s) :
    (s.pending = none → ∀ t, t ∈ s.statuses ↔ t ∈ s.tables) ∧ s.tables.Nodup ∧
    (∀ t status, s.statuses.lookup t = some status → status.taskId = t) ∧
    (∀ t status, s.statuses.lookup t = some status → status.state = .failed →
      10 < status.errorCount) ∧
    ∀ l s', (machine clock syncTasks).step s l s' → PausesRunning s s' := by
  have hs := registry_reachable hnodup h
  refine ⟨fun hpending => ?_, hs.nodup, hs.taskId, hs.failed, fun l s' hstep => ?_⟩
  · have hmatching := hs.matching
    rwa [Matching, hpending] at hmatching
  · exact (step_changes hstep).pausesRunning

def configured (table : String) : SyncTaskConfig := ⟨table, table, ⟨none, none, none, none⟩⟩

/-- A task is created while another one reports an error, which is then started and paused. -/
def createAndPause : List Label :=
  [.command (.createTask (configured "orders")) 1, .reportTaskError "users" "refused" 2,
    .proceed 3 4, .command (.start "users") 5, .command (.pause "users") 6]

def createdAndPaused : State where
  syncTasks := [configured "users", configured "orders"]
  statuses := ((∅ : Statuses).insert "orders" (newStatus (configured "orders") 3 4)).insert "users"
    ⟨"users", "users", .paused, none, 0, 1, some "refused", 0, 6⟩
  pending := none
  replies := [.ok ()]

theorem registry_invariant_createdAndPaused :
    (createdAndPaused.pending = none →
      ∀ t, t ∈ createdAndPaused.statuses ↔ t ∈ createdAndPaused.tables) ∧
    createdAndPaused.tables.Nodup ∧
    (∀ t status, createdAndPaused.statuses.lookup t = some status → status.taskId = t) ∧
    (∀ t status, createdAndPaused.statuses.lookup t = some status → status.state = .failed →
      10 < status.errorCount) ∧
    ∀ l s', (machine (fun _ => (0, 0)) [configured "users"]).step createdAndPaused l s' →
      PausesRunning createdAndPaused s' :=
  registry_invariant (List.nodup_singleton "users")
    (@Trans.Machine.reachable_of_runFn _ _ _ _ createAndPause _ _ (.init rfl) rfl)

end SyncTaskManager

end MeiliBridge
