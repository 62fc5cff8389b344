import MeiliBridge.Dlq.RedisIndex

/-!
# When the two storages of the dead letter queue agree

Every operation but one gives the same answer in both, as long as no entry is stored again under
another task. `get_by_task` of the Redis storage orders the entries by the second in which they were
created, and those of one second by their ids; it takes no limit for a limit of 1000; and for a
limit of 0 it panics, or lists everything, as overflow checks are on or off.
-/

set_option autoImplicit false

namespace MeiliBridge

namespace RedisDlqStorage

open Redis InMemoryDlqStorage

inductive DlqCall where
  | store (entry : DeadLetterEntry)
  | get (id : String)
  | getByTask (taskId : String) (limit : Option UInt64)
  | update (entry : DeadLetterEntry)
  | remove (id : String)
  | clearTask (taskId : String)
  | getStatistics

inductive DlqAnswer where
  | done (r : Except Fault Unit)
  | found (r : Except Fault (Option DeadLetterEntry))
  | listed (r : Except Fault (List DeadLetterEntry))
  | cleared (count : Nat)
  | counted (r : Except Fault DlqStatistics)

/-- The same answer, the counts of statistics in whatever order. -/
inductive SameAnswer : DlqAnswer → DlqAnswer → Prop
  | same (answer : DlqAnswer) : SameAnswer answer answer
  | counted {s t : DlqStatistics} (h : s.Same t) : SameAnswer (.counted (.ok s)) (.counted (.ok t))

def memoryCall (m : Dict DeadLetterEntry) : DlqCall → DlqAnswer × Dict DeadLetterEntry
  | .store entry | .update entry => (.done (.ok ()), InMemoryDlqStorage.store m entry)
  | .get id => (.found (.ok (InMemoryDlqStorage.get m id)), m)
  | .getByTask taskId limit => (.listed (.ok (InMemoryDlqStorage.getByTask m taskId limit)), m)
  | .remove id => (.done (.ok ()), InMemoryDlqStorage.remove m id)
  | .clearTask taskId =>
    (.cleared (InMemoryDlqStorage.clearTask m taskId).1,
      (InMemoryDlqStorage.clearTask m taskId).2)
  | .getStatistics => (.counted (.ok (InMemoryDlqStorage.getStatistics m)), m)

variable (s : RedisDlqStorage)

def redisCall (db : DlqDatabase) : DlqCall → DlqAnswer × DlqDatabase
  | .store entry | .update entry => (.done (.ok ()), s.store db entry)
  | .get id => (.found (s.get db id), db)
  | .getByTask taskId limit => (.listed (s.getByTask db taskId limit), db)
  | .remove id =>
    match s.remove db id with
    | .ok db' => (.done (.ok ()), db')
    | .error e => (.done (.error e), db)
  | .clearTask taskId => (.cleared (s.clearTask db taskId).1, (s.clearTask db taskId).2)
  | .getStatistics => (.counted (s.getStatistics db), db)

structure DlqStorages where
  memory : Dict DeadLetterEntry
  db : DlqDatabase

namespace DlqStorages

variable (b : DlqStorages)

def call (c : DlqCall) : DlqStorages := ⟨(memoryCall b.memory c).2, (s.redisCall b.db c).2⟩

def run (calls : List DlqCall) : DlqStorages := calls.foldl (call s) b

def Agrees (c : DlqCall) : Prop := SameAnswer (memoryCall b.memory c).1 (s.redisCall b.db c).1

end DlqStorages

/-- The entry that a call stores. -/
def DlqCall.stored : DlqCall → Option DeadLetterEntry
  | .store entry | .update entry => some entry
  | _ => none

/-! ## When a call fits -/

/-- An entry that is stored again stays with its task. -/
def KeepsTask (m : Dict DeadLetterEntry) (c : DlqCall) : Prop :=
  ∀ entry ∈ c.stored, ∀ old, m.lookup entry.id = some old → old.taskId = entry.taskId

/-- A limit that both storages read as the same number of so many entries. (A `usize` does not count
as far as 2^64.) -/
def LimitFits (limit : Option UInt64) (count : Nat) : Prop :=
  match limit with
  | none => count ≤ 1000
  | some n =>
    if n = 0 then ¬ s.overflowChecks ∧ count = 0
    else n.toNat ≤ 2 ^ 63 ∨ count = 0 ∨ count = 2 ^ 64

/-- How many of so many entries the limit asks for. -/
def wanted (limit : Option UInt64) (count : Nat) : Nat := limit.elim count UInt64.toNat

/-- Each of the oldest `n` entries has a smaller id than every younger one of the same second. -/
def InOrder (entries : List DeadLetterEntry) (n : Nat) : Prop :=
  ∀ entry ∈ entries, entries.countLess DeadLetterEntry.createdAt entry < n →
    ∀ younger ∈ entries, entry.createdAt < younger.createdAt →
      entry.timestamp = younger.timestamp → entry.id < younger.id

def Fits (m : Dict DeadLetterEntry) : DlqCall → Prop
  | .getByTask taskId limit =>
    s.LimitFits limit (ofTask m taskId).length ∧
      InOrder (ofTask m taskId) (wanted limit (ofTask m taskId).length)
  | _ => True

variable {s}

/-! ## The limit -/

theorem toInt_pred (n : UInt64) : (n - 1).toInt64.toInt =
    if n = 0 then -1 else if n.toNat ≤ 2 ^ 63 then (n.toNat : Int) - 1
    else (n.toNat : Int) - 1 - 2 ^ 64 := by
  have hlt := n.toNat_lt
  have hzero : n = 0 ↔ n.toNat = 0 := by rw [← UInt64.toNat_inj]; rfl
  have hval : (n - 1).toInt64.toInt = (n - 1).toBitVec.toInt := rfl
  rw [hval, BitVec.toInt_eq_toNat_cond, UInt64.toNat_toBitVec, UInt64.toNat_sub]
  simp only [UInt64.toNat_one, hzero]
  split <;> split <;> (try split) <;> omega

/-- The limit is read in the same way exactly when it fits. -/
theorem limitFits_iff (limit : Option UInt64) (count : Nat) :
    s.LimitFits limit count ↔ ∃ last, s.lastIndex (limit.getD 1000) = .ok last ∧
      min (SortedSet.covered last count) count = min (wanted limit count) count := by
  cases limit with
  | none =>
    have hlast : s.lastIndex 1000 = .ok 999 := by
      rw [lastIndex, if_neg (fun h => absurd h.2 (by decide))]
      rfl
    simp only [LimitFits, Option.getD_none, hlast, Except.ok.injEq, exists_eq_left', wanted,
      Option.elim_none, SortedSet.covered]
    omega
  | some n =>
    have hpred := toInt_pred n
    have hlt := n.toNat_lt
    simp only [LimitFits, Option.getD_some, wanted, Option.elim_some]
    by_cases hzero : n = 0
    · subst hzero
      by_cases hchecks : s.overflowChecks = true
      · simp [lastIndex, hchecks]
      · simp [lastIndex, hchecks, SortedSet.covered]
    · have hpos : n.toNat ≠ 0 := fun h => hzero (UInt64.toNat_inj.mp h)
      rw [if_neg hzero] at hpred
      have hlast : s.lastIndex n = .ok (n - 1).toInt64.toInt := by
        rw [lastIndex, if_neg (fun h => hzero h.2)]
      simp only [if_neg hzero, hlast, Except.ok.injEq, exists_eq_left', hpred, SortedSet.covered]
      split <;> split <;> omega

/-! ## One call -/

theorem getByTask_eq_take (m : Dict DeadLetterEntry) (taskId : String) (limit : Option UInt64) :
    InMemoryDlqStorage.getByTask m taskId limit =
      ((ofTask m taskId).sortedBy DeadLetterEntry.createdAt).take
        (wanted limit (ofTask m taskId).length) := by
  cases limit with
  | none =>
    rw [wanted, Option.elim_none, List.take_of_length_le (by rw [List.length_sortedBy])]
    rfl
  | some n => rfl

theorem rank_lt_iff {entry younger : DeadLetterEntry} (h : entry.createdAt < younger.createdAt) :
    rank entry < rank younger ↔ (entry.timestamp = younger.timestamp → entry.id < younger.id) := by
  have hle : entry.timestamp ≤ younger.timestamp := Nat.div_le_div_right (le_of_lt h)
  rw [rank, rank, Prod.Lex.toLex_lt_toLex]
  rcases hle.lt_or_eq with hlt | heq
  · simp [hlt, hlt.ne]
  · simp [heq]

theorem inOrder_iff (entries : List DeadLetterEntry) (n : Nat) :
    InOrder entries n ↔
      ∀ entry ∈ entries, entries.countLess DeadLetterEntry.createdAt entry < n →
        ∀ younger ∈ entries, entry.createdAt < younger.createdAt → rank entry < rank younger := by
  constructor
  · intro h entry hentry hcount younger hyounger hlt
    exact (rank_lt_iff hlt).mpr (h entry hentry hcount younger hyounger hlt)
  · intro h entry hentry hcount younger hyounger hlt
    exact (rank_lt_iff hlt).mp (h entry hentry hcount younger hyounger hlt)

variable {known : List DeadLetterEntry} {b : DlqStorages}

theorem distinct_ofTask (h : s.Indexed known b.memory b.db)
    (htimes : ∀ e ∈ known, ∀ e' ∈ known, e.createdAt = e'.createdAt → e.id = e'.id)
    (taskId : String) : (ofTask b.memory taskId).DistinctBy DeadLetterEntry.createdAt := by
  have hids := distinct_ids_filter h.keyed fun entry => decide (entry.taskId = taskId)
  refine List.Nodup.map_on (fun e he e' he' heq => ?_) hids.of_map
  have hmem := (mem_ofTask.mp he).1
  have hmem' := (mem_ofTask.mp he').1
  refine h.keyed.distinct_ids.eq hmem hmem' ?_
  exact htimes e (h.known e hmem) e' (h.known e' hmem') heq

/-- Two lists of a task are the same exactly when the call fits. -/
theorem getByTask_agrees_iff (h : s.Indexed known b.memory b.db) (hread : s.Readable known)
    (htimes : ∀ e ∈ known, ∀ e' ∈ known, e.createdAt = e'.createdAt → e.id = e'.id)
    (taskId : String) (limit : Option UInt64) :
    s.getByTask b.db taskId limit = .ok (InMemoryDlqStorage.getByTask b.memory taskId limit) ↔
      s.Fits b.memory (.getByTask taskId limit) := by
  have hdistinct := distinct_ofTask h htimes taskId
  have hranks : (ofTask b.memory taskId).DistinctBy rank :=
    distinct_rank (distinct_ids_filter h.keyed _)
  have horder := List.take_sortedBy_eq_iff hdistinct hranks
    (wanted limit (ofTask b.memory taskId).length)
  rw [← inOrder_iff] at horder
  rw [h.getByTask hread, getByTask_eq_take, Fits, limitFits_iff]
  cases s.lastIndex (limit.getD 1000) with
  | error e => simp [Except.map]
  | ok last =>
    simp only [Except.map, Except.ok.injEq, exists_eq_left']
    constructor
    · intro heq
      have hlen := congrArg List.length heq
      rw [List.length_take, List.length_take, List.length_sortedBy, List.length_sortedBy] at hlen
      refine ⟨hlen, horder.mp ?_⟩
      rw [← heq, List.take_eq_take_iff, List.length_sortedBy]
      exact hlen.symm
    · rintro ⟨hlen, hin⟩
      rw [← horder.mpr hin, List.take_eq_take_iff, List.length_sortedBy]
      exact hlen

theorem sameAnswer_listed {r r' : Except Fault (List DeadLetterEntry)} :
    SameAnswer (.listed r) (.listed r') ↔ r = r' := by
  constructor
  · intro h
    cases h
    rfl
  · intro h
    rw [h]
    exact .same _

/-- A call answers the same in both storages exactly when it fits. -/
theorem agrees_iff_fits (h : s.Indexed known b.memory b.db) (hread : s.Readable known)
    (htimes : ∀ e ∈ known, ∀ e' ∈ known, e.createdAt = e'.createdAt → e.id = e'.id) (c : DlqCall) :
    b.Agrees s c ↔ s.Fits b.memory c := by
  cases c with
  | store entry => exact iff_of_true (.same _) trivial
  | update entry => exact iff_of_true (.same _) trivial
  | get id =>
    refine iff_of_true ?_ trivial
    simp only [DlqStorages.Agrees, memoryCall, redisCall, h.get hread, InMemoryDlqStorage.get]
    exact .same _
  | getByTask taskId limit =>
    rw [← getByTask_agrees_iff h hread htimes]
    exact sameAnswer_listed.trans eq_comm
  | remove id =>
    refine iff_of_true ?_ trivial
    simp only [DlqStorages.Agrees, memoryCall, redisCall, RedisDlqStorage.remove, h.get hread]
    cases b.memory.lookup id <;> exact .same _
  | clearTask taskId =>
    refine iff_of_true ?_ trivial
    simp only [DlqStorages.Agrees, memoryCall, redisCall, h.count_clearTask, clearTask_count]
    exact .same _
  | getStatistics =>
    refine iff_of_true ?_ trivial
    simp only [DlqStorages.Agrees, memoryCall, redisCall, h.getStatistics hread]
    have hlen : (values b.memory).length = b.memory.entries.length := List.length_map _
    rw [hlen]
    exact .counted (same_statisticsOf List.perm_sortedBy.symm _)

/-! ## Every run -/

theorem indexed_call (h : s.Indexed known b.memory b.db) (hread : s.Readable known) {c : DlqCall}
    (hknown : ∀ entry ∈ c.stored, entry ∈ known) (hkeeps : KeepsTask b.memory c) :
    s.Indexed known (b.call s c).memory (b.call s c).db := by
  cases c with
  | store entry => exact h.store (hknown entry rfl) (hkeeps entry rfl)
  | update entry => exact h.store (hknown entry rfl) (hkeeps entry rfl)
  | get id => exact h
  | getByTask taskId limit => exact h
  | remove id =>
    simp only [DlqStorages.call, memoryCall, redisCall, RedisDlqStorage.remove, h.get hread]
    cases hlookup : b.memory.lookup id with
    | none =>
      refine h.congr fun other => ?_
      rw [InMemoryDlqStorage.remove, AList.lookup_erase_eq_ite]
      split
      · next hid => rw [hid, hlookup]
      · rfl
    | some entry => exact h.remove hlookup
  | clearTask taskId => exact h.clearTask taskId
  | getStatistics => exact h

/-- A key of this storage. -/
def Owns (s : RedisDlqStorage) (key : String) : Prop :=
  s.keyPrefix.toList ++ ":dlq:".toList <+: key.toList

/-- Nothing is stored yet, in a database that may hold keys of others. -/
def start (db : DlqDatabase) : DlqStorages := ⟨∅, db⟩

theorem lookup_of_foreign {db : DlqDatabase} (hdb : ∀ key ∈ db, ¬ s.Owns key) {key : String}
    (hkey : s.Owns key) : db.lookup key = none :=
  AList.lookup_eq_none.mpr fun hmem => hdb key hmem hkey

theorem owns_of_toList {key : String} {name : List Char}
    (h : key.toList = s.keyPrefix.toList ++ (":dlq:".toList ++ name)) : s.Owns key := by
  rw [Owns, h, ← List.append_assoc]
  exact List.prefix_append _ _

theorem indexed_start {db : DlqDatabase} (hdb : ∀ key ∈ db, ¬ s.Owns key) :
    s.Indexed known (start db).memory (start db).db where
  keyed _ _ h := absurd h (by simp [start])
  known _ h := absurd h List.not_mem_nil
  texts id := by
    have hlookup : db.lookup (s.entryKey id) = none :=
      lookup_of_foreign hdb (owns_of_toList (entryKey_toList id))
    simp [start, Redis.get, hlookup]
  taskIndex taskId id := by
    have hlookup : db.lookup (s.taskIndexKey taskId) = none :=
      lookup_of_foreign hdb (owns_of_toList (taskIndexKey_toList taskId))
    simp [start, sortedSet, hlookup]
  allEntries id := by
    have hlookup : db.lookup s.allEntriesKey = none :=
      lookup_of_foreign hdb (owns_of_toList allEntriesKey_toList)
    simp [start, sortedSet, hlookup]

theorem indexed_run (h : s.Indexed known b.memory b.db) (hread : s.Readable known)
    {calls : List DlqCall} (hknown : ∀ entry ∈ calls.filterMap DlqCall.stored, entry ∈ known)
    (hkeeps : ∀ before c, before ++ [c] <+: calls → KeepsTask (b.run s before).memory c) :
    s.Indexed known (b.run s calls).memory (b.run s calls).db := by
  induction calls using List.reverseRecOn with
  | nil => exact h
  | append_singleton calls c ih =>
    have ih := ih (fun entry hentry => hknown entry (by simp [hentry]))
      fun before c' hc => hkeeps before c' (hc.trans (List.prefix_append _ _))
    have hstep := indexed_call ih hread
      (fun entry hentry => hknown entry (by simp [Option.mem_def.mp hentry]))
      (hkeeps calls c (List.prefix_refl _))
    simpa [DlqStorages.run] using hstep

/-! ### What is stored again -/

theorem lookup_memoryCall {m : Dict DeadLetterEntry} {c : DlqCall} {id : String}
    {entry : DeadLetterEntry} (h : (memoryCall m c).2.lookup id = some entry) :
    m.lookup id = some entry ∨ c.stored = some entry := by
  cases c with
  | store e | update e =>
    rw [memoryCall, InMemoryDlqStorage.store, AList.lookup_insert_eq_ite] at h
    split at h
    · exact .inr h
    · exact .inl h
  | remove id => exact .inl (remove_sub h)
  | clearTask taskId => exact .inl (retain_sub h)
  | get | getByTask | getStatistics => exact .inl h

/-- What is in the memory was stored by one of the calls. -/
theorem mem_stored_of_lookup {db : DlqDatabase} {calls : List DlqCall} {id : String}
    {entry : DeadLetterEntry} (h : ((start db).run s calls).memory.lookup id = some entry) :
    entry ∈ calls.filterMap DlqCall.stored := by
  induction calls using List.reverseRecOn with
  | nil => exact absurd h (by simp [start, DlqStorages.run])
  | append_singleton calls c ih =>
    rw [DlqStorages.run, List.foldl_append] at h
    rcases lookup_memoryCall h with hold | hstored
    · simp [ih hold]
    · simp [hstored]

/-- If all entries belong to one task, none is stored again under another. -/
theorem keepsTask_of_task {db : DlqDatabase} {calls : List DlqCall} {taskId : String}
    (htask : ∀ entry ∈ calls.filterMap DlqCall.stored, entry.taskId = taskId) :
    ∀ before c, before ++ [c] <+: calls → KeepsTask ((start db).run s before).memory c := by
  intro before c hc entry hentry old hold
  have hsub := (hc.filterMap DlqCall.stored).subset
  have hstored : entry ∈ (before ++ [c]).filterMap DlqCall.stored := by
    simp [Option.mem_def.mp hentry]
  have hbefore : old ∈ (before ++ [c]).filterMap DlqCall.stored := by
    simp [mem_stored_of_lookup hold]
  rw [htask old (hsub hbefore), htask entry (hsub hstored)]

/-- **When the two storages agree**: in every run in which no entry is stored again under another
task, a call has the same answer in both exactly when it fits. -/
theorem dlq_answers_agree_iff (s : RedisDlqStorage) (db : DlqDatabase)
    (hdb : ∀ key ∈ db, ¬ s.Owns key) (calls : List DlqCall)
    (htimes : ∀ e ∈ calls.filterMap DlqCall.stored, ∀ e' ∈ calls.filterMap DlqCall.stored,
      e.createdAt = e'.createdAt → e.id = e'.id)
    (hread : s.Readable (calls.filterMap DlqCall.stored))
    (hkeeps : ∀ before c, before ++ [c] <+: calls →
      KeepsTask ((start db).run s before).memory c) :
    ∀ before c, before ++ [c] <+: calls →
      (((start db).run s before).Agrees s c ↔ s.Fits ((start db).run s before).memory c) := by
  intro before c hc
  have hbefore : before <+: calls := (List.prefix_append before [c]).trans hc
  have hknown : ∀ entry ∈ before.filterMap DlqCall.stored, entry ∈ calls.filterMap DlqCall.stored :=
    fun entry hentry => (hbefore.filterMap DlqCall.stored).subset hentry
  have hindexed := indexed_run (indexed_start hdb) hread hknown
    fun before' c' hc' => hkeeps before' c' (hc'.trans hbefore)
  exact agrees_iff_fits hindexed hread htimes c

/-! ## Two entries of one second -/

def bookEntry : DeadLetterEntry where
  id := "d1"
  taskId := "books"
  event := ⟨"e1", .delete, ⟨"", "public", "books"⟩, ⟨.null, none, none⟩, ⟨none, "", []⟩, 0⟩
  error := "Pipeline error: timeout"
  retryCount := 0
  createdAt := 0
  lastRetryAt := none

/-- One that was created half a second later. -/
def laterEntry : DeadLetterEntry := { bookEntry with id := "d2", createdAt := 500000000 }

def textOf (id createdAt : String) : String :=
  "\x7b\"id\":\"" ++ id ++ "\",\"task_id\":\"books\"," ++
  "\"event\":\x7b\"id\":\"e1\",\"event_type\":\"delete\"," ++
  "\"source\":\x7b\"database\":\"\",\"schema\":\"public\",\"table\":\"books\"\x7d," ++
  "\"data\":\x7b\"key\":null,\"old\":null,\"new\":null\x7d," ++
  "\"metadata\":\x7b\"transaction_id\":null,\"position\":\"\"\x7d," ++
  "\"timestamp\":\"1970-01-01T00:00:00Z\"\x7d,\"error\":\"Pipeline error: timeout\"," ++
  "\"retry_count\":0,\"created_at\":\"" ++ createdAt ++ "\",\"last_retry_at\":null," ++
  "\"metadata\":\x7b\x7d\x7d"

def bookText : String := textOf "d1" "1970-01-01T00:00:00Z"

def laterText : String := textOf "d2" "1970-01-01T00:00:00.500Z"

/-- How these entries are written and read. -/
def bookJson : EntryJson where
  toString entry := if entry.id = "d2" then laterText else bookText
  fromStr text :=
    if text = bookText then .ok bookEntry
    else if text = laterText then .ok laterEntry
    else .error "expected value at line 1 column 1"

def bookStorage (overflowChecks : Bool) : RedisDlqStorage := ⟨"app", bookJson, overflowChecks⟩

/-- The entries are stored, the later one first, and then those of their task are asked for. -/
def storedThenListed (limit : Option UInt64) : List DlqCall :=
  [.store laterEntry, .store bookEntry, .getByTask "books" limit]

theorem mem_stored {limit : Option UInt64} {entry : DeadLetterEntry}
    (h : entry ∈ (storedThenListed limit).filterMap DlqCall.stored) :
    entry = laterEntry ∨ entry = bookEntry := by
  simpa [storedThenListed, DlqCall.stored] using h

theorem readable_books (checks : Bool) (limit : Option UInt64) :
    (bookStorage checks).Readable ((storedThenListed limit).filterMap DlqCall.stored) := by
  intro entry h
  have hne : laterText ≠ bookText := by decide
  rcases mem_stored h with rfl | rfl
  · simp [bookStorage, bookJson, laterEntry, hne]
  · simp [bookStorage, bookJson, bookEntry]

theorem different_times {limit : Option UInt64} :
    ∀ e ∈ (storedThenListed limit).filterMap DlqCall.stored,
      ∀ e' ∈ (storedThenListed limit).filterMap DlqCall.stored,
        e.createdAt = e'.createdAt → e.id = e'.id := by
  intro e he e' he' hsame
  rcases mem_stored he with rfl | rfl <;> rcases mem_stored he' with rfl | rfl
  · rfl
  · exact absurd hsame (by decide)
  · exact absurd hsame (by decide)
  · rfl

theorem nothing_owned : ∀ key ∈ (∅ : DlqDatabase), ¬ s.Owns key :=
  fun key h => absurd h (AList.notMem_empty key)

theorem of_books (limit : Option UInt64) :
    ∀ entry ∈ (storedThenListed limit).filterMap DlqCall.stored, entry.taskId = "books" := by
  intro entry h
  rcases mem_stored h with rfl | rfl <;> rfl

theorem ofTask_books (checks : Bool) :
    ofTask ((start ∅).run (bookStorage checks) [.store laterEntry, .store bookEntry]).memory
      "books" = [bookEntry, laterEntry] :=
  rfl

/-- The older one is asked for, and it has the smaller id. -/
theorem dlq_answers_agree_books :
    ((start ∅).run (bookStorage true) [.store laterEntry, .store bookEntry]).Agrees
      (bookStorage true) (.getByTask "books" (some 1)) := by
  refine (dlq_answers_agree_iff (bookStorage true) ∅ nothing_owned (storedThenListed (some 1))
    different_times (readable_books true _) (keepsTask_of_task (of_books _))
    [.store laterEntry, .store bookEntry] _ (List.prefix_refl _)).mpr ⟨.inl (by decide), ?_⟩
  rw [ofTask_books, InOrder]
  decide

/-! ## A limit of zero -/

/-- What both storages would have to do in every run, for a program built in this way. -/
def AlwaysAgree (overflowChecks : Bool) : Prop :=
  ∀ (s : RedisDlqStorage) (db : DlqDatabase) (calls : List DlqCall),
    s.overflowChecks = overflowChecks → (∀ key ∈ db, ¬ s.Owns key) →
    (∀ e ∈ calls.filterMap DlqCall.stored, ∀ e' ∈ calls.filterMap DlqCall.stored,
      e.createdAt = e'.createdAt → e.id = e'.id) →
    s.Readable (calls.filterMap DlqCall.stored) →
    ∀ before c, before ++ [c] <+: calls → ((start db).run s before).Agrees s c

theorem not_alwaysAgree (checks : Bool) : ¬ AlwaysAgree checks := by
  intro hall
  have hagrees := hall (bookStorage checks) ∅ (storedThenListed (some 0)) rfl nothing_owned
    different_times (readable_books checks _) [.store laterEntry, .store bookEntry]
    (.getByTask "books" (some 0)) (List.prefix_refl _)
  have hfits := (agrees_iff_fits (indexed_run (indexed_start nothing_owned)
    (readable_books checks (some 0)) (fun _ h => h) (keepsTask_of_task (of_books _)))
    (readable_books checks _) different_times _).mp hagrees
  have hnone : (ofTask ((start ∅).run (bookStorage checks)
      [.store laterEntry, .store bookEntry]).memory "books").length = 0 := hfits.1.2
  rw [ofTask_books] at hnone
  cases hnone

/-- A task with two entries, asked for none: the Redis storage panics when it was built with
overflow checks, and answers with both when it was not. -/
theorem zero_limit_disagrees : ¬ AlwaysAgree true ∧ ¬ AlwaysAgree false :=
  ⟨not_alwaysAgree true, not_alwaysAgree false⟩

end RedisDlqStorage

end MeiliBridge
