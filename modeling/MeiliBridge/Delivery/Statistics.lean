import MeiliBridge.Delivery.Window

/-!
# The statistics of a deduplicator

Where every event that has been added is to be found in the counters: it was a duplicate, it was
pushed out, it is in the queue, or the queue it was in has been cleared. The balance is kept by
every call in every state, whatever marks the keys have, so it does not need the window to be right.
-/

set_option autoImplicit false

namespace MeiliBridge

namespace EventDeduplicator

/-- `current_size` -/
def currentSize (d : EventDeduplicator) : Nat := d.keyQueue.length

/-- The counters account for every event but those in a queue that was cleared. -/
def Balanced (d : EventDeduplicator) (cleared : Nat) : Prop :=
  d.stats.totalEvents =
    d.stats.duplicateEvents + d.stats.windowEvictions + d.currentSize + cleared

/-- `total_events = duplicate_events + window_evictions + current_size()` -/
def Conserved (d : EventDeduplicator) : Prop :=
  d.stats.totalEvents = d.stats.duplicateEvents + d.stats.windowEvictions + d.currentSize

variable {d : EventDeduplicator} {key : DeduplicationKey} {cleared n : Nat}

theorem balanced_zero : Balanced d 0 ↔ Conserved d := by
  rw [Balanced, Conserved, Nat.add_zero]

/-! ## One call -/

/-- An eviction counts the key it takes from the queue. -/
theorem evict_size : d.evict.stats.windowEvictions + d.evict.currentSize =
    d.stats.windowEvictions + d.currentSize := by
  unfold evict
  split
  · rfl
  · next oldest rest hqueue =>
    simp only [currentSize, hqueue, List.length_cons]
    rw [Nat.add_assoc, Nat.add_comm 1]

@[simp] theorem evict_totalEvents : d.evict.stats.totalEvents = d.stats.totalEvents := by
  unfold evict
  split <;> rfl

@[simp] theorem evict_duplicateEvents :
    d.evict.stats.duplicateEvents = d.stats.duplicateEvents := by
  unfold evict
  split <;> rfl

/-- A duplicate is counted as one and leaves the queue alone. -/
theorem Balanced.add_duplicate {count : Nat} (h : Balanced d cleared)
    (hkey : d.keySet.lookup key = some count) : Balanced (d.add key) cleared := by
  simp only [Balanced, currentSize] at h
  simp only [Balanced, currentSize, add, hkey]
  omega

/-- A new key goes into the queue, with or without an eviction before it. -/
theorem Balanced.add_new (h : Balanced d cleared) (hkey : d.keySet.lookup key = none) :
    Balanced (d.add key) cleared := by
  -- the eviction sees the state in which the event has already been counted
  let counted : EventDeduplicator :=
    { d with stats := { d.stats with totalEvents := d.stats.totalEvents + 1 } }
  have hevict := evict_size (d := counted)
  have htotal := evict_totalEvents (d := counted)
  have hduplicates := evict_duplicateEvents (d := counted)
  simp only [Balanced, currentSize, counted] at h hevict htotal hduplicates
  simp only [Balanced, currentSize, add, hkey]
  split
  · simp only [List.length_append, List.length_singleton, htotal, hduplicates]
    omega
  · simp only [List.length_append, List.length_singleton]
    omega

theorem Balanced.add (h : Balanced d cleared) (key : DeduplicationKey) :
    Balanced (d.add key) cleared := by
  cases hkey : d.keySet.lookup key with
  | some count => exact h.add_duplicate hkey
  | none => exact h.add_new hkey

/-! ## Runs -/

/-- How many keys a run of calls on a window of `n` clears. -/
def clearedKeys (n : Nat) : List WindowCall → List WindowCall → Nat
  | _, [] => 0
  | before, .add key :: calls => clearedKeys n (before ++ [.add key]) calls
  | before, .clear :: calls =>
    (afterCalls n before).currentSize + clearedKeys n (before ++ [.clear]) calls

theorem balanced_run (before calls : List WindowCall) (h : Balanced (afterCalls n before) cleared) :
    Balanced (afterCalls n (before ++ calls)) (cleared + clearedKeys n before calls) := by
  induction calls generalizing before cleared with
  | nil => simpa [clearedKeys] using h
  | cons call calls ih =>
    have hsplit : before ++ call :: calls = before ++ [call] ++ calls := by simp
    rw [hsplit]
    cases call with
    | add key =>
      refine ih (before ++ [.add key]) ?_
      rw [afterCalls_concat]
      exact h.add key
    | clear =>
      simp only [clearedKeys]
      rw [← Nat.add_assoc]
      refine ih (before ++ [.clear]) ?_
      rw [afterCalls_concat]
      simp only [Balanced, currentSize] at h
      simp only [handle, clear, Balanced, currentSize, List.length_nil]
      omega

/-- **After every sequence of calls the counters account for every event that was added.** -/
theorem balanced_afterCalls (n : Nat) (calls : List WindowCall) :
    Balanced (afterCalls n calls) (clearedKeys n [] calls) := by
  have hnew : Balanced (afterCalls n []) 0 := rfl
  have h := balanced_run [] calls hnew
  rwa [Nat.zero_add] at h

theorem clearedKeys_adds (before : List WindowCall) (keys : List DeduplicationKey) :
    clearedKeys n before (keys.map .add) = 0 := by
  induction keys generalizing before with
  | nil => rfl
  | cons key keys ih => exact ih (before ++ [.add key])

/-- **On a deduplicator that is only added to, every event is a duplicate, an eviction or in the
queue**, whatever the window size and however the keys repeat. -/
theorem statistics_conserved (n : Nat) (keys : List DeduplicationKey) :
    Conserved (keys.foldl add (new n)) := by
  have hrun : keys.foldl add (new n) = afterCalls n (keys.map .add) := by
    rw [afterCalls, List.foldl_map]
    rfl
  rw [hrun, ← balanced_zero, ← clearedKeys_adds [] keys]
  exact balanced_afterCalls n _

/-- Two events under one key and a third that pushes it out, in windows of one and of nothing. -/
example : ((afterCalls 1 [.add (bookKey "0/1"), .add (bookKey "0/1"), .add (bookKey "0/2")]).stats,
    (afterCalls 0 [.add (bookKey "0/1"), .add (bookKey "0/1"), .add (bookKey "0/2")]).stats) =
    (⟨3, 1, 1⟩, ⟨3, 1, 1⟩) := by
  decide

end EventDeduplicator

end MeiliBridge
