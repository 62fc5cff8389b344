import MeiliBridge.Dlq.Storage

/-!
# The indexes of the Redis storage

`Indexed` ties the texts and the sorted sets of a database to the entries that the in-memory storage
has; every operation keeps it. It is stated by what each key holds of each id, so that a command
that changes one key is one case.
-/

set_option autoImplicit false

namespace MeiliBridge

/-! ## The values of a map that is keyed by their ids -/

namespace InMemoryDlqStorage

variable {m : Dict DeadLetterEntry}

/-- Each entry is filed under its own id. -/
def Keyed (m : Dict DeadLetterEntry) : Prop := ∀ id entry, m.lookup id = some entry → entry.id = id

theorem mem_values {entry : DeadLetterEntry} :
    entry ∈ values m ↔ ∃ id, m.lookup id = some entry := by
  rw [values, List.mem_map]
  constructor
  · rintro ⟨⟨id, e⟩, hmem, rfl⟩
    exact ⟨id, AList.mem_lookup_iff.mpr hmem⟩
  · rintro ⟨id, hlookup⟩
    exact ⟨⟨id, entry⟩, AList.mem_lookup_iff.mp hlookup, rfl⟩

theorem Keyed.mem_values (h : Keyed m) {entry : DeadLetterEntry} :
    entry ∈ values m ↔ m.lookup entry.id = some entry := by
  rw [InMemoryDlqStorage.mem_values]
  constructor
  · rintro ⟨id, hlookup⟩
    rw [h id entry hlookup]
    exact hlookup
  · exact fun hlookup => ⟨_, hlookup⟩

theorem Keyed.distinct_ids (h : Keyed m) : (values m).DistinctBy DeadLetterEntry.id := by
  have hids : (values m).map DeadLetterEntry.id = m.keys := by
    rw [values, List.map_map]
    refine List.map_congr_left fun entry hmem => ?_
    exact h entry.1 entry.2 (AList.mem_lookup_iff.mpr hmem)
  rw [List.DistinctBy, hids]
  exact m.keys_nodup

theorem Keyed.store (h : Keyed m) (entry : DeadLetterEntry) :
    Keyed (InMemoryDlqStorage.store m entry) := by
  intro id e hlookup
  rw [InMemoryDlqStorage.store, AList.lookup_insert_eq_ite] at hlookup
  split at hlookup
  · next hid =>
    cases hlookup
    exact hid.symm
  · exact h id e hlookup

theorem remove_sub {id other : String} {entry : DeadLetterEntry}
    (h : (remove m id).lookup other = some entry) : m.lookup other = some entry := by
  rw [remove, AList.lookup_erase_eq_ite] at h
  split at h
  · cases h
  · exact h

theorem lookup_retain (taskId id : String) :
    (retain m taskId).lookup id = (m.lookup id).filter fun entry => entry.taskId ≠ taskId :=
  AList.lookup_filterEntries _ m id

theorem retain_sub {taskId id : String} {entry : DeadLetterEntry}
    (h : (retain m taskId).lookup id = some entry) : m.lookup id = some entry := by
  rw [lookup_retain] at h
  exact (Option.filter_eq_some_iff.mp h).1

theorem mem_ofTask {taskId : String} {entry : DeadLetterEntry} :
    entry ∈ ofTask m taskId ↔ entry ∈ values m ∧ entry.taskId = taskId := by
  rw [ofTask, List.mem_filter, decide_eq_true_iff]

theorem clearTask_count (m : Dict DeadLetterEntry) (taskId : String) :
    (clearTask m taskId).1 = (ofTask m taskId).length := by
  have hsplit := m.entries.length_eq_countP_add_countP fun entry => entry.2.taskId = taskId
  have hleft : (retain m taskId).entries.length =
      m.entries.countP fun entry => ¬ entry.2.taskId = taskId := by
    rw [retain, AList.filterEntries, ← List.countP_eq_length_filter]
  have htask : (ofTask m taskId).length =
      m.entries.countP fun entry => entry.2.taskId = taskId := by
    rw [ofTask, values, ← List.countP_eq_length_filter, List.countP_map]
    rfl
  simp only [decide_not, decide_eq_true_eq] at hsplit hleft
  rw [clearTask, hleft, htask]
  omega

end InMemoryDlqStorage

/-! ## The keys -/

namespace RedisDlqStorage

open Redis InMemoryDlqStorage

variable {s : RedisDlqStorage}

theorem entryKey_toList (id : String) :
    (s.entryKey id).toList = s.keyPrefix.toList ++ (":dlq:entry:".toList ++ id.toList) := by
  simp only [entryKey, toString, String.toList_append, List.append_assoc]

theorem taskIndexKey_toList (taskId : String) :
    (s.taskIndexKey taskId).toList =
      s.keyPrefix.toList ++ (":dlq:task:".toList ++ taskId.toList) := by
  simp only [taskIndexKey, toString, String.toList_append, List.append_assoc]

theorem allEntriesKey_toList : s.allEntriesKey.toList =
    s.keyPrefix.toList ++ ":dlq:all".toList := by
  simp only [allEntriesKey, toString, String.toList_append]

@[simp] theorem entryKey_inj {id other : String} :
    s.entryKey id = s.entryKey other ↔ id = other := by
  simp [← String.toList_inj, entryKey_toList]

@[simp] theorem taskIndexKey_inj {taskId other : String} :
    s.taskIndexKey taskId = s.taskIndexKey other ↔ taskId = other := by
  simp [← String.toList_inj, taskIndexKey_toList]

@[simp] theorem entryKey_ne_taskIndexKey {id taskId : String} :
    s.entryKey id ≠ s.taskIndexKey taskId := by
  simp [← String.toList_inj, entryKey_toList, taskIndexKey_toList]

@[simp] theorem taskIndexKey_ne_entryKey {id taskId : String} :
    s.taskIndexKey taskId ≠ s.entryKey id :=
  entryKey_ne_taskIndexKey.symm

@[simp] theorem entryKey_ne_allEntriesKey {id : String} : s.entryKey id ≠ s.allEntriesKey := by
  simp [← String.toList_inj, entryKey_toList, allEntriesKey_toList]

@[simp] theorem allEntriesKey_ne_entryKey {id : String} : s.allEntriesKey ≠ s.entryKey id :=
  entryKey_ne_allEntriesKey.symm

@[simp] theorem taskIndexKey_ne_allEntriesKey {taskId : String} :
    s.taskIndexKey taskId ≠ s.allEntriesKey := by
  simp [← String.toList_inj, taskIndexKey_toList, allEntriesKey_toList]

@[simp] theorem allEntriesKey_ne_taskIndexKey {taskId : String} :
    s.allEntriesKey ≠ s.taskIndexKey taskId :=
  taskIndexKey_ne_allEntriesKey.symm

/-! ## What an operation does to each key -/

section Keys

variable (db : DlqDatabase)

@[simp] theorem get_store (entry : DeadLetterEntry) (id : String) :
    Redis.get (s.store db entry) (s.entryKey id) =
      if id = entry.id then some (s.json.toString entry) else Redis.get db (s.entryKey id) := by
  simp [store]

@[simp] theorem taskIndex_store (entry : DeadLetterEntry) (taskId id : String) :
    (sortedSet (s.store db entry) (s.taskIndexKey taskId)).lookup id =
      if taskId = entry.taskId ∧ id = entry.id then some entry.timestamp
      else (sortedSet db (s.taskIndexKey taskId)).lookup id := by
  by_cases htask : taskId = entry.taskId
  · subst htask
    simp [store, AList.lookup_insert_eq_ite]
  · simp [store, htask]

@[simp] theorem allEntries_store (entry : DeadLetterEntry) (id : String) :
    (sortedSet (s.store db entry) s.allEntriesKey).lookup id =
      if id = entry.id then some entry.timestamp
      else (sortedSet db s.allEntriesKey).lookup id := by
  simp [store, AList.lookup_insert_eq_ite]

@[simp] theorem get_removeEntry (id taskId other : String) :
    Redis.get (s.removeEntry db id taskId) (s.entryKey other) =
      if other = id then none else Redis.get db (s.entryKey other) := by
  simp [removeEntry]

@[simp] theorem taskIndex_removeEntry (id taskId task other : String) :
    (sortedSet (s.removeEntry db id taskId) (s.taskIndexKey task)).lookup other =
      if task = taskId ∧ other = id then none
      else (sortedSet db (s.taskIndexKey task)).lookup other := by
  by_cases htask : task = taskId
  · subst htask
    simp [removeEntry, AList.lookup_erase_eq_ite]
  · simp [removeEntry, htask]

@[simp] theorem allEntries_removeEntry (id taskId other : String) :
    (sortedSet (s.removeEntry db id taskId) s.allEntriesKey).lookup other =
      if other = id then none else (sortedSet db s.allEntriesKey).lookup other := by
  simp [removeEntry, AList.lookup_erase_eq_ite]

@[simp] theorem get_clearEntries (ids : List String) (id : String) :
    Redis.get (ids.foldl s.clearEntry db) (s.entryKey id) =
      if id ∈ ids then none else Redis.get db (s.entryKey id) := by
  induction ids generalizing db with
  | nil => simp
  | cons other ids ih =>
    rw [List.foldl_cons, ih]
    by_cases hid : id = other <;> simp [clearEntry, hid]

@[simp] theorem taskIndex_clearEntries (ids : List String) (taskId : String) :
    sortedSet (ids.foldl s.clearEntry db) (s.taskIndexKey taskId) =
      sortedSet db (s.taskIndexKey taskId) := by
  induction ids generalizing db with
  | nil => rfl
  | cons other ids ih =>
    rw [List.foldl_cons, ih]
    simp [clearEntry]

@[simp] theorem allEntries_clearEntries (ids : List String) (id : String) :
    (sortedSet (ids.foldl s.clearEntry db) s.allEntriesKey).lookup id =
      if id ∈ ids then none else (sortedSet db s.allEntriesKey).lookup id := by
  induction ids generalizing db with
  | nil => simp
  | cons other ids ih =>
    rw [List.foldl_cons, ih]
    by_cases hid : id = other <;> simp [clearEntry, hid, AList.lookup_erase_eq_ite]

end Keys

/-! ## The indexes -/

variable (s) in
/-- The database has the entries of the memory, and each in the indexes it belongs to. -/
structure Indexed (known : List DeadLetterEntry) (m : Dict DeadLetterEntry) (db : DlqDatabase) :
    Prop where
  keyed : Keyed m
  known : ∀ entry ∈ values m, entry ∈ known
  texts : ∀ id, Redis.get db (s.entryKey id) = (m.lookup id).map s.json.toString
  taskIndex : ∀ taskId id, (sortedSet db (s.taskIndexKey taskId)).lookup id =
    ((m.lookup id).filter fun entry => entry.taskId = taskId).map DeadLetterEntry.timestamp
  allEntries : ∀ id, (sortedSet db s.allEntriesKey).lookup id =
    (m.lookup id).map DeadLetterEntry.timestamp

variable {known : List DeadLetterEntry} {m : Dict DeadLetterEntry} {db : DlqDatabase}

theorem Indexed.congr (h : s.Indexed known m db) {m' : Dict DeadLetterEntry}
    (hsame : ∀ id, m'.lookup id = m.lookup id) : s.Indexed known m' db where
  keyed id e hlookup := h.keyed id e ((hsame id).symm.trans hlookup)
  known e he := by
    obtain ⟨id, hlookup⟩ := mem_values.mp he
    exact h.known e (mem_values.mpr ⟨id, (hsame id).symm.trans hlookup⟩)
  texts id := by rw [hsame, h.texts]
  taskIndex taskId id := by rw [hsame, h.taskIndex]
  allEntries id := by rw [hsame, h.allEntries]

theorem Indexed.store (h : s.Indexed known m db) {entry : DeadLetterEntry} (hknown : entry ∈ known)
    (htask : ∀ old, m.lookup entry.id = some old → old.taskId = entry.taskId) :
    s.Indexed known (InMemoryDlqStorage.store m entry) (s.store db entry) where
  keyed := h.keyed.store entry
  known e he := by
    obtain ⟨id, hlookup⟩ := mem_values.mp he
    rw [InMemoryDlqStorage.store, AList.lookup_insert_eq_ite] at hlookup
    split at hlookup
    · cases hlookup
      exact hknown
    · exact h.known e (mem_values.mpr ⟨id, hlookup⟩)
  texts id := by
    rw [get_store, InMemoryDlqStorage.store, AList.lookup_insert_eq_ite, h.texts]
    split <;> rfl
  taskIndex taskId id := by
    rw [taskIndex_store, InMemoryDlqStorage.store, AList.lookup_insert_eq_ite, h.taskIndex]
    by_cases hid : id = entry.id
    · subst hid
      by_cases hsame : taskId = entry.taskId
      · simp [hsame]
      · have hother : ¬ entry.taskId = taskId := fun heq => hsame heq.symm
        cases hold : m.lookup entry.id with
        | none => simp [hsame, hother]
        | some old =>
          have hold' : ¬ old.taskId = taskId := by rwa [htask old hold]
          rw [if_neg (fun hand => hsame hand.1), if_pos rfl,
            Option.filter_some_neg (by simpa using hold'),
            Option.filter_some_neg (by simpa using hother)]
    · simp [hid]
  allEntries id := by
    rw [allEntries_store, InMemoryDlqStorage.store, AList.lookup_insert_eq_ite, h.allEntries]
    split <;> rfl

theorem Indexed.remove (h : s.Indexed known m db) {id : String} {entry : DeadLetterEntry}
    (hentry : m.lookup id = some entry) :
    s.Indexed known (InMemoryDlqStorage.remove m id) (s.removeEntry db id entry.taskId) where
  keyed other e hlookup := h.keyed other e (remove_sub hlookup)
  known e he := by
    obtain ⟨other, hlookup⟩ := mem_values.mp he
    exact h.known e (mem_values.mpr ⟨other, remove_sub hlookup⟩)
  texts other := by
    rw [get_removeEntry, InMemoryDlqStorage.remove, AList.lookup_erase_eq_ite, h.texts]
    split <;> rfl
  taskIndex taskId other := by
    rw [taskIndex_removeEntry, InMemoryDlqStorage.remove, AList.lookup_erase_eq_ite, h.taskIndex]
    by_cases hid : other = id
    · subst hid
      by_cases hsame : taskId = entry.taskId
      · simp [hsame]
      · have hother : ¬ entry.taskId = taskId := fun heq => hsame heq.symm
        simp [hsame, hentry, hother]
    · simp [hid]
  allEntries other := by
    rw [allEntries_removeEntry, InMemoryDlqStorage.remove, AList.lookup_erase_eq_ite, h.allEntries]
    split <;> rfl

/-! ### Reading -/

/-- Every entry that was stored is read back from its text. -/
def Readable (s : RedisDlqStorage) (known : List DeadLetterEntry) : Prop :=
  ∀ entry ∈ known, s.json.fromStr (s.json.toString entry) = .ok entry

theorem Indexed.get (h : s.Indexed known m db) (hread : s.Readable known) (id : String) :
    s.get db id = .ok (m.lookup id) := by
  rw [RedisDlqStorage.get, h.texts]
  cases hlookup : m.lookup id with
  | none => rfl
  | some entry => simp [hread entry (h.known entry (mem_values.mpr ⟨id, hlookup⟩))]

theorem Indexed.getAll (h : s.Indexed known m db) (hread : s.Readable known)
    {entries : List DeadLetterEntry} (hmem : ∀ entry ∈ entries, entry ∈ values m) :
    s.getAll db (entries.map DeadLetterEntry.id) = .ok entries := by
  induction entries with
  | nil => rfl
  | cons entry entries ih =>
    have hentry := h.keyed.mem_values.mp (hmem entry List.mem_cons_self)
    have ih := ih fun e he => hmem e (List.mem_cons_of_mem _ he)
    rw [List.map_cons, RedisDlqStorage.getAll, h.get hread, hentry, ih]
    rfl

/-- The order of an index. -/
def rank (entry : DeadLetterEntry) : Nat ×ₗ String := toLex (entry.timestamp, entry.id)

theorem distinct_rank {entries : List DeadLetterEntry}
    (h : entries.DistinctBy DeadLetterEntry.id) : entries.DistinctBy rank := by
  refine List.Nodup.of_map (fun x => (ofLex x).2) ?_
  rw [List.map_map]
  exact h

theorem distinct_ids_filter (h : Keyed m) (p : DeadLetterEntry → Bool) :
    ((values m).filter p).DistinctBy DeadLetterEntry.id :=
  h.distinct_ids.sublist (List.filter_sublist.map _)

/-- An index lists its entries in order. -/
theorem ranked_index (h : Keyed m) {p : DeadLetterEntry → Bool} {index : SortedSet Nat}
    (hindex : ∀ id, index.lookup id = ((m.lookup id).filter p).map DeadLetterEntry.timestamp) :
    index.ranked = (((values m).filter p).sortedBy rank).map rank := by
  have hdistinct := distinct_rank (distinct_ids_filter h p)
  refine List.Pairwise.eq_of_mem_iff SortedSet.pairwise_ranked
    (List.pairwise_map.mpr (List.pairwise_lt_sortedBy hdistinct)) fun member => ?_
  obtain ⟨score, id⟩ := member
  rw [show ((score, id) : Nat ×ₗ String) = toLex (score, id) from rfl, SortedSet.mem_ranked, hindex,
    List.mem_map]
  constructor
  · intro hscore
    obtain ⟨entry, hentry, rfl⟩ := Option.map_eq_some_iff.mp hscore
    obtain ⟨hlookup, hp⟩ := Option.filter_eq_some_iff.mp hentry
    have hid := h id entry hlookup
    subst hid
    refine ⟨entry, ?_, rfl⟩
    rw [List.mem_sortedBy, List.mem_filter]
    exact ⟨h.mem_values.mpr hlookup, hp⟩
  · rintro ⟨entry, hentry, heq⟩
    obtain ⟨hmem, hp⟩ := List.mem_filter.mp (List.mem_sortedBy.mp hentry)
    obtain ⟨rfl, rfl⟩ := Prod.mk.inj (toLex.injective heq)
    rw [h.mem_values.mp hmem, Option.filter_some_pos hp, Option.map_some]

theorem ids_ranked_index (h : Keyed m) {p : DeadLetterEntry → Bool} {index : SortedSet Nat}
    (hindex : ∀ id, index.lookup id = ((m.lookup id).filter p).map DeadLetterEntry.timestamp) :
    (index.ranked.map fun member => (ofLex member).2) =
      (((values m).filter p).sortedBy rank).map DeadLetterEntry.id := by
  rw [ranked_index h hindex, List.map_map]
  rfl

theorem Indexed.getByTask (h : s.Indexed known m db) (hread : s.Readable known) (taskId : String)
    (limit : Option UInt64) :
    s.getByTask db taskId limit = (s.lastIndex (limit.getD 1000)).map fun last =>
      ((ofTask m taskId).sortedBy rank).take (SortedSet.covered last (ofTask m taskId).length) := by
  rw [RedisDlqStorage.getByTask]
  cases s.lastIndex (limit.getD 1000) with
  | error e => rfl
  | ok last =>
    have hids := ids_ranked_index h.keyed (h.taskIndex taskId)
    have hlen := congrArg List.length (ranked_index h.keyed (h.taskIndex taskId))
    rw [List.length_map, List.length_sortedBy] at hlen
    show s.getAll db (zrange db (s.taskIndexKey taskId) 0 last) = .ok _
    rw [zrange, SortedSet.range_zero, hids, hlen, ← List.map_take]
    refine h.getAll hread fun entry hentry => ?_
    exact (mem_ofTask.mp (List.mem_sortedBy.mp (List.mem_of_mem_take hentry))).1

theorem Indexed.getStatistics (h : s.Indexed known m db) (hread : s.Readable known) :
    s.getStatistics db = .ok (statisticsOf (values m).length ((values m).sortedBy rank)) := by
  have hall : ∀ id, (sortedSet db s.allEntriesKey).lookup id =
      ((m.lookup id).filter fun _ => true).map DeadLetterEntry.timestamp := by
    intro id
    rw [h.allEntries]
    cases m.lookup id <;> rfl
  have hids := ids_ranked_index h.keyed hall
  rw [List.filter_true] at hids
  rw [RedisDlqStorage.getStatistics, zrange, SortedSet.range_all, hids,
    h.getAll hread fun entry hentry => List.mem_sortedBy.mp hentry]
  show Except.ok (statisticsOf _ _) = _
  rw [List.length_map, List.length_sortedBy]

/-! ### Clearing a task -/

theorem Indexed.ids_of_task (h : s.Indexed known m db) (taskId : String) :
    zrange db (s.taskIndexKey taskId) 0 (-1) =
      ((ofTask m taskId).sortedBy rank).map DeadLetterEntry.id := by
  rw [zrange, SortedSet.range_all]
  exact ids_ranked_index h.keyed (h.taskIndex taskId)

theorem Indexed.mem_ids_of_task (h : s.Indexed known m db) {taskId id : String} :
    id ∈ zrange db (s.taskIndexKey taskId) 0 (-1) ↔
      ∃ entry, m.lookup id = some entry ∧ entry.taskId = taskId := by
  rw [h.ids_of_task, List.mem_map]
  constructor
  · rintro ⟨entry, hentry, rfl⟩
    obtain ⟨hmem, htask⟩ := mem_ofTask.mp (List.mem_sortedBy.mp hentry)
    exact ⟨entry, h.keyed.mem_values.mp hmem, htask⟩
  · rintro ⟨entry, hlookup, htask⟩
    have hid := h.keyed id entry hlookup
    subst hid
    exact ⟨entry, List.mem_sortedBy.mpr (mem_ofTask.mpr ⟨h.keyed.mem_values.mpr hlookup, htask⟩),
      rfl⟩

theorem Indexed.count_clearTask (h : s.Indexed known m db) (taskId : String) :
    (s.clearTask db taskId).1 = (ofTask m taskId).length := by
  have hlen := congrArg List.length (h.ids_of_task taskId)
  rw [List.length_map, List.length_sortedBy] at hlen
  simp only [RedisDlqStorage.clearTask]
  split <;> exact hlen

theorem Indexed.lookup_retain (h : s.Indexed known m db) (taskId id : String) :
    (retain m taskId).lookup id =
      if id ∈ zrange db (s.taskIndexKey taskId) 0 (-1) then none else m.lookup id := by
  rw [InMemoryDlqStorage.lookup_retain]
  cases hlookup : m.lookup id with
  | none => simp
  | some entry =>
    by_cases htask : entry.taskId = taskId
    · rw [if_pos (h.mem_ids_of_task.mpr ⟨entry, hlookup, htask⟩),
        Option.filter_some_neg (by simpa using htask)]
    · rw [if_neg, Option.filter_some_pos (by simpa using htask)]
      intro hmem
      obtain ⟨other, hother, htask'⟩ := h.mem_ids_of_task.mp hmem
      rw [hlookup] at hother
      cases hother
      exact htask htask'

theorem Indexed.clearTask (h : s.Indexed known m db) (taskId : String) :
    s.Indexed known (retain m taskId) (s.clearTask db taskId).2 := by
  have hkeyed : Keyed (retain m taskId) := fun id e hlookup => h.keyed id e (retain_sub hlookup)
  have hknown : ∀ entry ∈ values (retain m taskId), entry ∈ known := by
    intro e he
    obtain ⟨id, hlookup⟩ := mem_values.mp he
    exact h.known e (mem_values.mpr ⟨id, retain_sub hlookup⟩)
  have hleft := h.lookup_retain taskId
  have hids := @Indexed.mem_ids_of_task _ _ _ _ h taskId
  simp only [RedisDlqStorage.clearTask]
  set ids := zrange db (s.taskIndexKey taskId) 0 (-1)
  split
  · refine ⟨hkeyed, hknown, fun id => ?_, fun task id => ?_, fun id => ?_⟩
    · simp only [get_del, entryKey_ne_taskIndexKey, if_false, get_clearEntries, h.texts, hleft]
      split <;> rfl
    · by_cases htask : task = taskId
      · subst htask
        rw [sortedSet_del, if_pos rfl, InMemoryDlqStorage.lookup_retain, Option.filter_filter]
        simp
      · simp only [sortedSet_del, taskIndexKey_inj, htask, if_false, taskIndex_clearEntries,
          h.taskIndex, hleft]
        split
        · next hmem =>
          obtain ⟨entry, hlookup, hentry⟩ := hids.mp hmem
          have hother : ¬ entry.taskId = task := fun heq => htask (heq.symm.trans hentry)
          rw [hlookup, Option.filter_some_neg (by simpa using hother)]
          rfl
        · rfl
    · simp only [sortedSet_del, allEntriesKey_ne_taskIndexKey, if_false, allEntries_clearEntries,
        h.allEntries, hleft]
      split <;> rfl
  · next hnone =>
    -- the task has no entries, and nothing is left out
    refine h.congr fun id => ?_
    rw [hleft, if_neg]
    exact fun hmem => hnone (List.length_pos_of_mem hmem)

end RedisDlqStorage

end MeiliBridge
