import MeiliBridge.Delivery.World
import MeiliBridge.Lib.Ranking
import MeiliBridge.Lib.Redis

/-!
# The two storages of the dead letter queue

`InMemoryDlqStorage` is a map of entries by their ids. `RedisDlqStorage` keeps the text of each
entry under a key of its own, and two kinds of sorted sets as indexes: one for each task and one of
all entries, with the second in which an entry was created as its score.

Creation times count the nanoseconds from the start of some second that is before them all.
-/

set_option autoImplicit false

namespace MeiliBridge

structure DlqStatistics where
  totalEntries : Nat
  entriesByTask : Dict Nat
  entriesByError : Dict Nat
  oldestEntry : Option Nat
  newestEntry : Option Nat

/-! ## Statistics -/

/-- `lines().next()` -/
def firstLine (text : String) : Option String :=
  let cs := text.toList
  let line := cs.takeWhile (· != '\n')
  if cs = [] then none
  else if '\n' ∈ cs ∧ line.getLast? = some '\r' then some (String.ofList line.dropLast)
  else some (String.ofList line)

def errorType (entry : DeadLetterEntry) : String := (firstLine entry.error).getD "Unknown"

/-- `*counts.entry(key).or_insert(0) += 1` -/
def countUp (counts : Dict Nat) (key : String) : Dict Nat :=
  counts.insert key ((counts.lookup key).getD 0 + 1)

def earlier (time : Nat) : Option Nat → Option Nat
  | none => some time
  | some old => if time < old then some time else some old

def later (time : Nat) : Option Nat → Option Nat
  | none => some time
  | some new => if time > new then some time else some new

/-- The loop of `get_statistics`, which is the same in both storages. -/
def statisticsOf (total : Nat) (entries : List DeadLetterEntry) : DlqStatistics where
  totalEntries := total
  entriesByTask := (entries.map DeadLetterEntry.taskId).foldl countUp ∅
  entriesByError := (entries.map errorType).foldl countUp ∅
  oldestEntry :=
    (entries.map DeadLetterEntry.createdAt).foldl (fun old time => earlier time old) none
  newestEntry :=
    (entries.map DeadLetterEntry.createdAt).foldl (fun new time => later time new) none

/-- The same statistics, whatever the order of the counts in the maps. -/
structure DlqStatistics.Same (s t : DlqStatistics) : Prop where
  totalEntries : s.totalEntries = t.totalEntries
  entriesByTask : ∀ task, s.entriesByTask.lookup task = t.entriesByTask.lookup task
  entriesByError : ∀ error, s.entriesByError.lookup error = t.entriesByError.lookup error
  oldestEntry : s.oldestEntry = t.oldestEntry
  newestEntry : s.newestEntry = t.newestEntry

theorem lookup_countUp (counts : Dict Nat) (key other : String) :
    (countUp counts key).lookup other =
      if other = key then some ((counts.lookup key).getD 0 + 1) else counts.lookup other := by
  by_cases h : other = key
  · subst h
    simp [countUp]
  · simp [countUp, h]

theorem lookup_counts (keys : List String) (counts : Dict Nat) (key : String) :
    (keys.foldl countUp counts).lookup key =
      if key ∈ keys then some ((counts.lookup key).getD 0 + keys.count key)
      else counts.lookup key := by
  induction keys generalizing counts with
  | nil => simp
  | cons k keys ih =>
    rw [List.foldl_cons, ih, lookup_countUp]
    by_cases hk : key = k
    · subst hk
      by_cases hmem : key ∈ keys
      · simp [hmem]
        omega
      · simp [hmem, List.count_eq_zero_of_not_mem]
    · have hk' : ¬ k = key := fun h => hk h.symm
      simp [hk, hk']

theorem lookup_counts_perm {keys keys' : List String} (h : keys.Perm keys') (key : String) :
    (keys.foldl countUp ∅).lookup key = (keys'.foldl countUp ∅).lookup key := by
  rw [lookup_counts, lookup_counts, h.count_eq]
  simp only [h.mem_iff]

theorem earlier_comm (old : Option Nat) (s t : Nat) :
    earlier t (earlier s old) = earlier s (earlier t old) := by
  cases old with
  | none => grind [earlier]
  | some old => grind [earlier]

theorem later_comm (new : Option Nat) (s t : Nat) :
    later t (later s new) = later s (later t new) := by
  cases new with
  | none => grind [later]
  | some new => grind [later]

/-- The statistics do not depend on the order of the entries. -/
theorem same_statisticsOf {entries entries' : List DeadLetterEntry} (h : entries.Perm entries')
    (total : Nat) : (statisticsOf total entries).Same (statisticsOf total entries') where
  totalEntries := rfl
  entriesByTask := lookup_counts_perm (h.map _)
  entriesByError := lookup_counts_perm (h.map _)
  oldestEntry := (h.map _).foldl_eq' (fun s _ t _ old => earlier_comm old s t) none
  newestEntry := (h.map _).foldl_eq' (fun s _ t _ new => later_comm new s t) none

/-! ## In memory -/

namespace InMemoryDlqStorage

variable (m : Dict DeadLetterEntry)

/-- `store`, and `update` -/
def store (entry : DeadLetterEntry) : Dict DeadLetterEntry := m.insert entry.id entry

def get (id : String) : Option DeadLetterEntry := m.lookup id

def remove (id : String) : Dict DeadLetterEntry := m.erase id

def values : List DeadLetterEntry := m.entries.map Sigma.snd

/-- The entries of a task. -/
def ofTask (taskId : String) : List DeadLetterEntry :=
  (values m).filter fun entry => entry.taskId = taskId

/-- `get_by_task`: oldest first -/
def getByTask (taskId : String) (limit : Option UInt64) : List DeadLetterEntry :=
  let taskEntries := (ofTask m taskId).sortedBy DeadLetterEntry.createdAt
  match limit with
  | some limit => taskEntries.take limit.toNat
  | none => taskEntries

def getStatistics : DlqStatistics := statisticsOf m.entries.length (values m)

/-- What `clear_task` leaves. -/
def retain (taskId : String) : Dict DeadLetterEntry :=
  m.filterEntries fun entry => entry.2.taskId ≠ taskId

/-- `clear_task` -/
def clearTask (taskId : String) : Nat × Dict DeadLetterEntry :=
  (m.entries.length - (retain m taskId).entries.length, retain m taskId)

end InMemoryDlqStorage

/-! ## In Redis -/

/-- How entries are written to texts and read from them. -/
structure EntryJson where
  toString : DeadLetterEntry → String
  fromStr : String → Except String DeadLetterEntry

/-- `key_prefix` and how the program was built: with overflow checks or without. -/
structure RedisDlqStorage where
  keyPrefix : String
  json : EntryJson
  overflowChecks : Bool

abbrev DlqDatabase := Redis.Keyspace Nat String

/-- `created_at.timestamp()` -/
def DeadLetterEntry.timestamp (entry : DeadLetterEntry) : Nat := entry.createdAt / 1000000000

namespace RedisDlqStorage

open Redis

variable (s : RedisDlqStorage) (db : DlqDatabase)

def entryKey (id : String) : String := s!"{s.keyPrefix}:dlq:entry:{id}"

def taskIndexKey (taskId : String) : String := s!"{s.keyPrefix}:dlq:task:{taskId}"

def allEntriesKey : String := s!"{s.keyPrefix}:dlq:all"

/-- `store`, and `update` -/
def store (entry : DeadLetterEntry) : DlqDatabase :=
  let db := Redis.set db (s.entryKey entry.id) (s.json.toString entry)
  let db := zadd db (s.taskIndexKey entry.taskId) entry.id entry.timestamp
  zadd db s.allEntriesKey entry.id entry.timestamp

def get (id : String) : Except Fault (Option DeadLetterEntry) :=
  match Redis.get db (s.entryKey id) with
  | some data =>
    match s.json.fromStr data with
    | .ok entry => .ok (some entry)
    | .error msg => .error (.err (.serialization msg))
  | none => .ok none

/-- The loops that get one entry after the other. -/
def getAll : List String → Except Fault (List DeadLetterEntry)
  | [] => .ok []
  | id :: ids => do
    let entry ← s.get db id
    let entries ← getAll ids
    pure (entry.toList ++ entries)

/-- `(limit - 1) as isize` -/
def lastIndex (limit : UInt64) : Except Fault Int :=
  if s.overflowChecks ∧ limit = 0 then .error .panic else .ok (limit - 1).toInt64.toInt

/-- `get_by_task` -/
def getByTask (taskId : String) (limit : Option UInt64) : Except Fault (List DeadLetterEntry) := do
  let last ← s.lastIndex (limit.getD 1000)
  s.getAll db (zrange db (s.taskIndexKey taskId) 0 last)

/-- The transaction of `remove` -/
def removeEntry (id taskId : String) : DlqDatabase :=
  let db := del db (s.entryKey id)
  let db := zrem db (s.taskIndexKey taskId) id
  zrem db s.allEntriesKey id

def remove (id : String) : Except Fault DlqDatabase := do
  match ← s.get db id with
  | some entry => pure (s.removeEntry db id entry.taskId)
  | none => pure db

def getStatistics : Except Fault DlqStatistics := do
  let entryIds := zrange db s.allEntriesKey 0 (-1)
  let entries ← s.getAll db entryIds
  pure (statisticsOf entryIds.length entries)

/-- What the transaction of `clear_task` does for each id -/
def clearEntry (id : String) : DlqDatabase :=
  zrem (del db (s.entryKey id)) s.allEntriesKey id

def clearTask (taskId : String) : Nat × DlqDatabase :=
  let entryIds := zrange db (s.taskIndexKey taskId) 0 (-1)
  if entryIds.length > 0 then
    (entryIds.length, del (entryIds.foldl s.clearEntry db) (s.taskIndexKey taskId))
  else (entryIds.length, db)

end RedisDlqStorage

end MeiliBridge
