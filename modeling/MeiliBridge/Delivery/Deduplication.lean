import Mathlib.Data.List.AList
import MeiliBridge.Models.Event

/-!
# Deduplication

The sliding window of `EventDeduplicator`, and the key under which the pipeline files an event.
-/

set_option autoImplicit false

namespace MeiliBridge

structure DeduplicationKey where
  lsn : String
  xid : Option UInt32
  table : String
  primaryKey : Option String
  deriving DecidableEq

namespace DeduplicationKey

def new (lsn : String) (xid : Option UInt32) (table : String) : DeduplicationKey :=
  ⟨lsn, xid, table, none⟩

def withPrimaryKey (key : DeduplicationKey) (pk : String) : DeduplicationKey :=
  { key with primaryKey := some pk }

end DeduplicationKey

/-- `extract_position_from_event` -/
def extractPositionFromEvent : Event → Option Position
  | .cdc e => e.position
  | .insert _ _ position | .update _ _ _ position | .delete _ _ position => position
  | .checkpoint position => some position
  | .fullSync _ _ | .heartbeat => none

/-- The `lsn` of a key: that of a PostgreSQL position, nothing of any other. -/
def dedupLsn : Option Position → String
  | some (.postgreSQL lsn) => lsn
  | _ => ""

/-- The key of a row's event, with the field `id` as its primary key. -/
def dedupRowKey (table : String) (id : Option Value) (position : Option Position) :
    DeduplicationKey :=
  let key := DeduplicationKey.new (dedupLsn position) none table
  match id with
  | some v => key.withPrimaryKey v.display
  | none => key

/-- `create_dedup_key_from_event` -/
def createDedupKeyFromEvent : Event → DeduplicationKey
  | .cdc e => dedupRowKey e.table (e.data.get "id") e.position
  | .insert table newData position => dedupRowKey table (newData.get "id") position
  | .update table _ newData position => dedupRowKey table (newData.get "id") position
  | .delete table oldData position => dedupRowKey table (oldData.get "id") position
  | _ => .new "" none ""

structure DeduplicationStats where
  totalEvents : Nat
  duplicateEvents : Nat
  windowEvictions : Nat
  deriving DecidableEq

structure EventDeduplicator where
  windowSize : Nat
  /-- oldest key first -/
  keyQueue : List DeduplicationKey
  keySet : AList fun _ : DeduplicationKey => Nat
  stats : DeduplicationStats

namespace EventDeduplicator

def new (windowSize : Nat) : EventDeduplicator := ⟨windowSize, [], ∅, ⟨0, 0, 0⟩⟩

/-- `contains` -/
def contains (d : EventDeduplicator) (key : DeduplicationKey) : Bool :=
  (d.keySet.lookup key).isSome

/-- One mark less on the oldest key, which leaves the window. -/
def release (d : EventDeduplicator) (oldest : DeduplicationKey) :
    AList fun _ : DeduplicationKey => Nat :=
  match d.keySet.lookup oldest with
  | some count =>
    if count = 1 then d.keySet.erase oldest else d.keySet.insert oldest (count - 1)
  | none => d.keySet

/-- Evict the oldest key. -/
def evict (d : EventDeduplicator) : EventDeduplicator :=
  match d.keyQueue with
  | [] => d
  | oldest :: rest => {
      d with
      keyQueue := rest
      keySet := d.release oldest
      stats := { d.stats with windowEvictions := d.stats.windowEvictions + 1 } }

/-- `add` -/
def add (d : EventDeduplicator) (key : DeduplicationKey) : EventDeduplicator :=
  let d := { d with stats := { d.stats with totalEvents := d.stats.totalEvents + 1 } }
  match d.keySet.lookup key with
  | some count => {
      d with
      keySet := d.keySet.insert key (count + 1)
      stats := { d.stats with duplicateEvents := d.stats.duplicateEvents + 1 } }
  | none =>
    let d := if d.windowSize ≤ d.keyQueue.length then d.evict else d
    { d with keyQueue := d.keyQueue ++ [key], keySet := d.keySet.insert key 1 }

theorem contains_iff {d : EventDeduplicator} {key : DeduplicationKey} :
    d.contains key = true ↔ key ∈ d.keySet := AList.lookup_isSome

@[simp] theorem contains_new (n : Nat) (key : DeduplicationKey) : (new n).contains key = false :=
  rfl

theorem mem_release {d : EventDeduplicator} {oldest key : DeduplicationKey}
    (h : key ∈ d.release oldest) : key ∈ d.keySet := by
  unfold release at h
  split at h
  · next count hcount =>
    split at h
    · exact (AList.mem_erase.mp h).2
    · rcases (AList.mem_insert _).mp h with rfl | h
      · exact AList.lookup_isSome.mp (by simp [hcount])
      · exact h
  · exact h

theorem mem_evict {d : EventDeduplicator} {key : DeduplicationKey} (h : key ∈ d.evict.keySet) :
    key ∈ d.keySet := by
  unfold evict at h
  split at h
  · exact h
  · exact mem_release h

/-- **Adding a key brings no other key into the window.** -/
theorem contains_add {d : EventDeduplicator} {key k : DeduplicationKey}
    (h : (d.add key).contains k = true) : k = key ∨ d.contains k = true := by
  rw [contains_iff] at h ⊢
  unfold add at h
  simp only at h
  split at h
  · exact (AList.mem_insert _).mp h
  · rcases (AList.mem_insert _).mp h with rfl | h
    · exact Or.inl rfl
    · refine Or.inr ?_
      split at h
      · have hmem := mem_evict h
        exact hmem
      · exact h

end EventDeduplicator

end MeiliBridge
