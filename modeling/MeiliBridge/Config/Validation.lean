import MeiliBridge.Destination.IndexRouting

/-!
# Validated configurations

The checks of `ConfigLoader::validate` and `ConfigValidator::validate`, and what the pipeline keys
by the names of a configuration: its source adapters, its checkpoints and its map of indexes. Of the
report of `ConfigValidator` only the errors are kept; its warnings and notes go to the log.

Neither validator looks at the id or the source name of a task (`accepted_rename`), and the check
for two tasks on one table compares the tables as they are written (`validateSyncTasks_eq_nil`).
`sound_iff` says which of the accepted configurations are sound for the pipeline.
-/

set_option autoImplicit false

namespace MeiliBridge

structure PoolConfig where
  maxSize : UInt32
  minIdle : UInt32

structure PostgreSQLConfig where
  slotName : String
  publication : String
  pool : PoolConfig

inductive SourceConfig where
  | postgreSQL (config : PostgreSQLConfig)
  | mySQL
  | mongoDB

structure NamedSourceConfig where
  name : String
  config : SourceConfig

/-- A task with what the validators and the pipeline's maps read of it. -/
structure ConfiguredTask extends SyncTaskConfig where
  id : String
  sourceName : String
  batchSize : UInt64

structure Config where
  source : Option SourceConfig
  sources : List NamedSourceConfig
  syncTasks : List ConfiguredTask
  meilisearchUrl : String
  meilisearchTimeout : UInt64
  redisUrl : String
  apiPort : UInt16

/-- `if c { errors.push(msg) }` -/
def errorIf (c : Prop) [Decidable c] (msg : String) : List String := if c then [msg] else []

@[simp] theorem errorIf_eq_nil {c : Prop} [Decidable c] {msg : String} :
    errorIf c msg = [] ↔ ¬ c := by
  unfold errorIf
  split <;> simp_all

/-! ## The two validators -/

namespace ConfigLoader

/-- The checks of a pool, under the name of its source. -/
def poolErrors (label : String) : SourceConfig → List String
  | .postgreSQL pg =>
    errorIf (pg.pool.maxSize < pg.pool.minIdle) s!"{label} pool max_size must be >= min_idle" ++
      errorIf (pg.pool.maxSize = 0) s!"{label} pool max_size must be > 0"
  | _ => []

def taskErrors (i : Nat) (task : ConfiguredTask) : List String :=
  errorIf (task.table = "") s!"Sync task {i} has empty table name" ++
    errorIf (task.index = "") s!"Sync task {i} has empty index name" ++
    errorIf (task.batchSize = 0) s!"Sync task {i} batch_size must be > 0"

def errors (config : Config) : List String :=
  config.source.toList.flatMap (poolErrors "PostgreSQL") ++
    (config.sources.flatMap fun s => poolErrors s!"PostgreSQL source '{s.name}'" s.config) ++
    errorIf (config.syncTasks = []) "At least one sync task must be configured" ++
    (config.syncTasks.zipIdx.flatMap fun (task, i) => taskErrors i task) ++
    errorIf (config.meilisearchUrl = "") "Meilisearch URL cannot be empty" ++
    errorIf (config.redisUrl = "") "Redis URL cannot be empty" ++
    errorIf (config.apiPort = 0) "API port must be > 0"

/-- `validate` -/
def validate (config : Config) : Result Unit :=
  if errors config = [] then .ok ()
  else .error (.validation (Text.join (errors config) ", "))

end ConfigLoader

namespace ConfigValidator

/-- The errors of `validate_batch_config` -/
def validateBatchConfig (task : ConfiguredTask) : List String :=
  errorIf (task.batchSize = 0)
    s!"Invalid batch_size (0) for table '{task.table}'. Must be greater than 0."

/-- The errors of `validate_sync_tasks`, where the tables of `seenTables` have been seen. -/
def validateSyncTasks (seenTables : List String) : List ConfiguredTask → List String
  | [] => []
  | task :: tasks =>
    errorIf (task.table ∈ seenTables) (s!"Duplicate sync task for table '{task.table}'." ++
        " Only one sync task per table is allowed.") ++
      validateBatchConfig task ++ validateSyncTasks (task.table :: seenTables) tasks

/-- The checks of one source, under its name. -/
def sourceErrors (label : String) : SourceConfig → List String
  | .postgreSQL pg =>
    errorIf (pg.slotName = "") s!"{label} slot_name cannot be empty" ++
      errorIf (pg.publication = "") s!"{label} publication name cannot be empty" ++
      errorIf (pg.pool.maxSize < pg.pool.minIdle)
        (s!"{label} pool min_idle ({pg.pool.minIdle}) cannot be greater than" ++
          s!" max_size ({pg.pool.maxSize})")
  | _ => []

/-- The errors of `validate_source` -/
def validateSource (config : Config) : List String :=
  config.source.toList.flatMap (sourceErrors "PostgreSQL") ++
    (config.sources.flatMap fun s => sourceErrors s!"PostgreSQL source '{s.name}'" s.config) ++
    errorIf (config.source.isNone ∧ config.sources.isEmpty)
      "At least one data source must be configured (use 'source' or 'sources')"

/-- The errors of `validate_destination` -/
def validateDestination (config : Config) : List String :=
  errorIf (config.meilisearchUrl = "") "Meilisearch URL cannot be empty" ++
    errorIf (config.meilisearchTimeout = 0) "Meilisearch timeout must be greater than 0"

/-- The errors that `validate` reports -/
def validate (config : Config) : List String :=
  validateSyncTasks [] config.syncTasks ++ validateSource config ++ validateDestination config

/-- **Tasks are checked against each other by their tables as these are written**, so that two
spellings of one table pass. -/
theorem validateSyncTasks_eq_nil {seenTables : List String} {tasks : List ConfiguredTask} :
    validateSyncTasks seenTables tasks = [] ↔
      (tasks.map fun task => task.table).Nodup ∧ (∀ task ∈ tasks, task.table ∉ seenTables) ∧
        ∀ task ∈ tasks, task.batchSize ≠ 0 := by
  induction tasks generalizing seenTables with
  | nil => simp [validateSyncTasks]
  | cons task tasks ih =>
    simp only [validateSyncTasks, validateBatchConfig, List.append_eq_nil_iff, errorIf_eq_nil, ih,
      List.map_cons, List.nodup_cons, List.mem_cons, forall_eq_or_imp, List.mem_map, not_exists,
      not_and, not_or]
    constructor
    · rintro ⟨⟨hseen, hbatch⟩, hnodup, htables, hbatches⟩
      exact ⟨⟨fun other hother => (htables other hother).1, hnodup⟩,
        ⟨hseen, fun other hother => (htables other hother).2⟩, hbatch, hbatches⟩
    · rintro ⟨⟨hnew, hnodup⟩, ⟨hseen, htables⟩, hbatch, hbatches⟩
      exact ⟨⟨hseen, hbatch⟩, hnodup, fun other hother => ⟨hnew other hother, htables other hother⟩,
        hbatches⟩

end ConfigValidator

namespace Config

/-- Both validators let the configuration through. -/
structure Accepted (c : Config) : Prop where
  loader : ConfigLoader.validate c = .ok ()
  validator : ConfigValidator.validate c = []

/-! ## What the pipeline keys by name -/

/-- The names under which `PipelineOrchestrator::new` enters source adapters. -/
def sourceNames (c : Config) : List String :=
  (c.source.map fun _ => "primary").toList ++ c.sources.map (·.name)

open PipelineOrchestrator (parseTableIdentifier canonicalTableKey tableKeys buildTableIndexMap)

/-- The pipeline can tell the tasks of the configuration apart: no two have one id, each has a
source, and no two enter different indexes under one key. -/
structure Sound (rt : Runtime) (c : Config) : Prop where
  ids : (c.syncTasks.map fun task => task.id).Nodup
  sources : ∀ task ∈ c.syncTasks, task.sourceName ∈ c.sourceNames
  keys : c.syncTasks.Pairwise fun task task' => ∀ key,
    key ∈ tableKeys rt task.toSyncTaskConfig → key ∈ tableKeys rt task'.toSyncTaskConfig →
      task.index = task'.index

/-! ## What the validators make sure of -/

variable {rt : Runtime} {c : Config}

theorem Accepted.errors_eq_nil (h : c.Accepted) : ConfigLoader.errors c = [] := by
  by_contra hne
  have hloader := h.loader
  rw [ConfigLoader.validate, if_neg hne] at hloader
  cases hloader

theorem Accepted.named (h : c.Accepted) {task : ConfiguredTask} (htask : task ∈ c.syncTasks) :
    task.table ≠ "" ∧ task.index ≠ "" := by
  have herrors := h.errors_eq_nil
  simp only [ConfigLoader.errors, List.append_eq_nil_iff, List.flatMap_eq_nil_iff] at herrors
  obtain ⟨⟨⟨⟨-, htasks⟩, -⟩, -⟩, -⟩ := herrors
  obtain ⟨i, hi⟩ := List.mem_iff_getElem?.mp htask
  have herror := htasks (task, i) (List.mk_mem_zipIdx_iff_getElem?.mpr hi)
  simp only [ConfigLoader.taskErrors, List.append_eq_nil_iff, errorIf_eq_nil] at herror
  exact herror.1

/-- Other ids and source names for the tasks. -/
def rename (ids sources : ConfiguredTask → String) (c : Config) : Config :=
  { c with
    syncTasks := c.syncTasks.map fun task =>
      { task with id := ids task, sourceName := sources task } }

/-- **The validators look at neither the ids nor the source names of the tasks.** -/
theorem accepted_rename (ids sources : ConfiguredTask → String) :
    (c.rename ids sources).Accepted ↔ c.Accepted := by
  have hloader : ConfigLoader.errors (c.rename ids sources) = ConfigLoader.errors c := by
    simp only [ConfigLoader.errors, rename, List.zipIdx_map, List.flatMap_map, List.map_eq_nil_iff]
    rfl
  have htasks (seenTables : List String) (tasks : List ConfiguredTask) :
      ConfigValidator.validateSyncTasks seenTables (tasks.map fun task =>
        { task with id := ids task, sourceName := sources task }) =
      ConfigValidator.validateSyncTasks seenTables tasks := by
    induction tasks generalizing seenTables with
    | nil => rfl
    | cons task tasks ih =>
      simp only [List.map_cons, ConfigValidator.validateSyncTasks, ih]
      rfl
  have hvalidator : ConfigValidator.validate (c.rename ids sources) =
      ConfigValidator.validate c := by
    simp only [ConfigValidator.validate, rename, htasks]
    rfl
  constructor
  · rintro ⟨h, h'⟩
    refine ⟨?_, hvalidator ▸ h'⟩
    rwa [ConfigLoader.validate, hloader] at h
  · rintro ⟨h, h'⟩
    refine ⟨?_, hvalidator.trans h'⟩
    rwa [ConfigLoader.validate, hloader]

/-! ## Soundness -/

/-- The key of a task's bare table name. -/
def bareKey (rt : Runtime) (task : ConfiguredTask) : String :=
  canonicalTableKey rt none (parseTableIdentifier task.table).2

/-- The key of its qualified name, if it has one. -/
def qualifiedKey (rt : Runtime) (task : ConfiguredTask) : Option String :=
  (parseTableIdentifier task.table).1.map fun schema =>
    canonicalTableKey rt (some schema) (parseTableIdentifier task.table).2

/-- The two tables have different bare names, and neither's qualified name is a name of the other,
up to quotes and case. -/
structure NamesApart (rt : Runtime) (task task' : ConfiguredTask) : Prop where
  bare : bareKey rt task = bareKey rt task' → bareKey rt task = ""
  qualified : qualifiedKey rt task = qualifiedKey rt task' → (qualifiedKey rt task).getD "" = ""
  left : qualifiedKey rt task = some (bareKey rt task') → bareKey rt task' = ""
  right : qualifiedKey rt task' = some (bareKey rt task) → bareKey rt task = ""

/-- What the validators leave open: the ids are distinct, each task's source is the unnamed one, or
a named one, and tables of different indexes have different names. -/
structure Distinct (rt : Runtime) (c : Config) : Prop where
  ids : c.syncTasks.Pairwise fun task task' => task.id ≠ task'.id
  sources : ∀ task ∈ c.syncTasks,
    (task.sourceName = "primary" ∧ c.source.isSome) ∨ ∃ s ∈ c.sources, s.name = task.sourceName
  names : c.syncTasks.Pairwise fun task task' =>
    task.index ≠ task'.index → NamesApart rt task task'

theorem mem_tableKeys {task : ConfiguredTask} (htask : task.table ≠ "" ∧ task.index ≠ "")
    {key : String} :
    key ∈ tableKeys rt task.toSyncTaskConfig ↔
      key ≠ "" ∧ (qualifiedKey rt task = some key ∨ bareKey rt task = key) := by
  simp only [tableKeys, htask.1, htask.2, or_self, if_false, List.mem_filter, List.mem_append,
    Option.mem_toList, List.mem_singleton, decide_eq_true_eq]
  rw [and_comm, @eq_comm _ key]
  rfl

/-- Two tasks have no key in common exactly when their tables' names are apart. -/
theorem namesApart_iff {task task' : ConfiguredTask} (htask : task.table ≠ "" ∧ task.index ≠ "")
    (htask' : task'.table ≠ "" ∧ task'.index ≠ "") :
    NamesApart rt task task' ↔ ∀ key, key ∈ tableKeys rt task.toSyncTaskConfig →
      key ∉ tableKeys rt task'.toSyncTaskConfig := by
  simp only [mem_tableKeys htask, mem_tableKeys htask']
  constructor
  · rintro ⟨hbare, hqualified, hleft, hright⟩ key ⟨hkey, hq | rfl⟩ ⟨-, hq' | hb'⟩
    · exact hkey (by simpa [hq] using hqualified (hq.trans hq'.symm))
    · exact hkey (hb' ▸ hleft (hb' ▸ hq))
    · exact hkey (hright hq')
    · exact hkey (hbare hb'.symm)
  · intro h
    refine ⟨fun heq => ?_, fun heq => ?_, fun heq => ?_, fun heq => ?_⟩
    · by_contra hne
      exact h _ ⟨hne, Or.inr rfl⟩ ⟨hne, Or.inr heq.symm⟩
    · cases hq : qualifiedKey rt task with
      | none => rfl
      | some key =>
        by_contra hne
        exact h key ⟨hne, Or.inl hq⟩ ⟨hne, Or.inl (heq ▸ hq)⟩
    · by_contra hne
      exact h _ ⟨hne, Or.inl heq⟩ ⟨hne, Or.inr rfl⟩
    · by_contra hne
      exact h _ ⟨hne, Or.inr rfl⟩ ⟨hne, Or.inl heq⟩

theorem mem_sourceNames {name : String} :
    name ∈ c.sourceNames ↔
      (name = "primary" ∧ c.source.isSome) ∨ ∃ s ∈ c.sources, s.name = name := by
  simp only [sourceNames, List.mem_append, Option.mem_toList, List.mem_map, Option.map_eq_some_iff]
  refine or_congr_left ?_
  cases c.source with
  | none => simp
  | some source => simp [eq_comm]

/-- In a sound configuration every name of a task's table leads to the task's own index. -/
theorem Sound.lookup (h : Sound rt c) {task : ConfiguredTask} (htask : task ∈ c.syncTasks)
    {key : String} (hkey : key ∈ tableKeys rt task.toSyncTaskConfig) :
    (buildTableIndexMap rt (c.syncTasks.map (·.toSyncTaskConfig))).lookup key =
      some task.index := by
  rw [PipelineOrchestrator.lookup_buildTableIndexMap, PipelineOrchestrator.keyHolder]
  set holders := (c.syncTasks.map (·.toSyncTaskConfig)).filter fun t => key ∈ tableKeys rt t
  have hmem : task.toSyncTaskConfig ∈ holders :=
    List.mem_filter.mpr ⟨List.mem_map_of_mem htask, by simpa using hkey⟩
  cases hlast : holders.getLast? with
  | none =>
    rw [List.getLast?_eq_none_iff.mp hlast] at hmem
    cases hmem
  | some holder =>
    obtain ⟨hholder, hholds⟩ := List.mem_filter.mp (List.mem_of_getLast? hlast)
    obtain ⟨task', htask', rfl⟩ := List.mem_map.mp hholder
    refine congrArg some ?_
    have hsymm : Std.Symm fun task task' : ConfiguredTask => ∀ key,
        key ∈ tableKeys rt task.toSyncTaskConfig → key ∈ tableKeys rt task'.toSyncTaskConfig →
          task.index = task'.index := ⟨fun _ _ hsame k hk hk' => (hsame k hk' hk).symm⟩
    by_cases heq : task' = task
    · rw [heq]
    · exact h.keys.forall htask' htask heq key (by simpa using hholds) hkey

/-- **An accepted configuration is sound for the pipeline exactly when** its ids, its source names
and the names of its tables are as the validators do not check. -/
theorem sound_iff (h : c.Accepted) : Sound rt c ↔ Distinct rt c := by
  have hkeys : (c.syncTasks.Pairwise fun task task' => ∀ key,
      key ∈ tableKeys rt task.toSyncTaskConfig → key ∈ tableKeys rt task'.toSyncTaskConfig →
        task.index = task'.index) ↔
      c.syncTasks.Pairwise fun task task' => task.index ≠ task'.index →
        NamesApart rt task task' := by
    refine List.Pairwise.iff_of_mem fun {task task'} htask htask' => ?_
    rw [namesApart_iff (h.named htask) (h.named htask')]
    constructor
    · intro hsame hne key hkey hkey'
      exact hne (hsame key hkey hkey')
    · intro hdisjoint key hkey hkey'
      by_contra hne
      exact hdisjoint hne key hkey hkey'
  constructor
  · rintro ⟨hids, hsources, hindexes⟩
    refine ⟨List.pairwise_map.mp hids, fun task htask => ?_, hkeys.mp hindexes⟩
    exact mem_sourceNames.mp (hsources task htask)
  · rintro ⟨hids, hsources, hnames⟩
    refine ⟨List.pairwise_map.mpr hids, fun task htask => ?_, hkeys.mpr hnames⟩
    exact mem_sourceNames.mpr (hsources task htask)

/-- One source, and two tasks on these tables. -/
def twoTasks (table table' : String) : Config where
  source := some (.postgreSQL ⟨"slot", "pub", ⟨10, 1⟩⟩)
  sources := []
  syncTasks := [
    { plainTask table "all" with id := "5e1", sourceName := "primary", batchSize := 1000 },
    { plainTask table' "shop" with id := "7c4", sourceName := "primary", batchSize := 1000 }]
  meilisearchUrl := "http://localhost:7700"
  meilisearchTimeout := 30
  redisUrl := "redis://localhost:6379"
  apiPort := 7701

/-- A bare name and a qualified name of it pass the validators, and share a key. -/
theorem accepted_not_sound : ¬ ∀ (rt : Runtime) (c : Config), c.Accepted → Sound rt c := by
  intro hall
  have hsound := hall ⟨id, id, ""⟩ (twoTasks "books" "shop.books") ⟨rfl, rfl⟩
  have hindex := (List.pairwise_cons.mp hsound.keys).1 _ (List.mem_singleton_self _) "books"
    (by decide) (by decide)
  exact absurd hindex (by decide)

/-- Two tables with different names. -/
theorem sound_books : Sound ⟨id, id, ""⟩ (twoTasks "books" "users") := by
  refine (sound_iff ⟨rfl, rfl⟩).mpr ⟨?_, fun task htask => Or.inl ⟨?_, rfl⟩, ?_⟩
  · decide
  · rcases List.mem_pair.mp htask with rfl | rfl
    · rfl
    · rfl
  · refine List.pairwise_pair.mpr fun _ => ⟨?_, ?_, ?_, ?_⟩
    · decide
    · decide
    · decide
    · decide

end Config

end MeiliBridge
