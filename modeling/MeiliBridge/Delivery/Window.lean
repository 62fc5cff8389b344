import Mathlib.Data.List.Infix
import MeiliBridge.Delivery.Deduplication
import MeiliBridge.Lib.SlidingWindow

/-!
# The deduplication window

What `EventDeduplicator` is for: a first-in first-out window over the keys that have newly entered
since the last `clear`. A key that is added again while it is inside gets a second mark; when it is
the oldest one, an eviction takes it out of the queue and only one mark off it, so that the set goes
on to hold it. The window is right as long as the key that is pushed out has one mark
(`window_iff`).
-/

set_option autoImplicit false

namespace MeiliBridge

open SlidingWindow

namespace EventDeduplicator

/-- `clear` -/
def clear (d : EventDeduplicator) : EventDeduplicator := { d with keyQueue := [], keySet := ∅ }

inductive WindowCall where
  | add (key : DeduplicationKey)
  | clear

def handle (d : EventDeduplicator) : WindowCall → EventDeduplicator
  | .add key => d.add key
  | .clear => d.clear

/-- A new deduplicator after a sequence of calls. -/
def afterCalls (n : Nat) (calls : List WindowCall) : EventDeduplicator :=
  calls.foldl handle (new n)

/-- What a call makes of the log of a window of `n`, newest key first. -/
def enter (n : Nat) (log : List DeduplicationKey) : WindowCall → List DeduplicationKey
  | .add key => accept id n log key
  | .clear => []

/-- The keys that have newly entered a window of `n` since the last `clear`, newest first. -/
def enteredKeys (n : Nat) (calls : List WindowCall) : List DeduplicationKey :=
  calls.foldl (enter n) []

/-- The law of the window after a sequence of calls. -/
structure IsWindow (n : Nat) (calls : List WindowCall) : Prop where
  keys : ∀ key, key ∈ (afterCalls n calls).keySet ↔ key ∈ (afterCalls n calls).keyQueue
  nodup : (afterCalls n calls).keyQueue.Nodup
  size : (afterCalls n calls).keyQueue.length ≤ n
  contains : ∀ key, (afterCalls n calls).contains key = true ↔ key ∈ (enteredKeys n calls).take n

/-- A call pushes no key out of the window but one with a single mark. -/
def PushesOutMarkedOnce (d : EventDeduplicator) : WindowCall → Prop
  | .add key => d.contains key = false → d.windowSize ≤ d.keyQueue.length →
      ∀ oldest, d.keyQueue.head? = some oldest → d.keySet.lookup oldest = some 1
  | .clear => True

@[simp] theorem afterCalls_concat (n : Nat) (calls : List WindowCall) (call : WindowCall) :
    afterCalls n (calls ++ [call]) = (afterCalls n calls).handle call := by
  simp [afterCalls]

@[simp] theorem enteredKeys_concat (n : Nat) (calls : List WindowCall) (call : WindowCall) :
    enteredKeys n (calls ++ [call]) = enter n (enteredKeys n calls) call := by
  simp [enteredKeys]

variable {d : EventDeduplicator} {n : Nat} {log : List DeduplicationKey} {key : DeduplicationKey}

@[simp] theorem evict_windowSize : d.evict.windowSize = d.windowSize := by
  unfold evict
  split <;> rfl

@[simp] theorem add_windowSize : (d.add key).windowSize = d.windowSize := by
  unfold add
  simp only
  split
  · rfl
  · split
    · exact evict_windowSize
    · rfl

/-! ## The three ways an `add` can go -/

/-- A key that is inside gets another mark. -/
theorem add_of_contains {count : Nat} (h : d.keySet.lookup key = some count) :
    (d.add key).keyQueue = d.keyQueue ∧ (d.add key).keySet = d.keySet.insert key (count + 1) := by
  simp [add, h]

/-- A new key in a window with room. -/
theorem add_of_room (h : d.keySet.lookup key = none) (hroom : d.keyQueue.length < d.windowSize) :
    (d.add key).keyQueue = d.keyQueue ++ [key] ∧ (d.add key).keySet = d.keySet.insert key 1 := by
  simp [add, h, Nat.not_le.mpr hroom]

/-- A new key in a full window. -/
theorem add_of_full (h : d.keySet.lookup key = none) (hfull : d.windowSize ≤ d.keyQueue.length)
    {oldest : DeduplicationKey} {rest : List DeduplicationKey}
    (hqueue : d.keyQueue = oldest :: rest) :
    (d.add key).keyQueue = rest ++ [key] ∧
      (d.add key).keySet = (d.release oldest).insert key 1 := by
  rw [hqueue] at hfull
  simp only [add, h, hqueue, if_pos hfull, evict, true_and]
  rfl

theorem release_of_one {oldest : DeduplicationKey} (h : d.keySet.lookup oldest = some 1) :
    d.release oldest = d.keySet.erase oldest := by
  simp [release, h]

theorem release_of_more {oldest : DeduplicationKey} {count : Nat}
    (h : d.keySet.lookup oldest = some count) (hcount : count ≠ 1) :
    d.release oldest = d.keySet.insert oldest (count - 1) := by
  simp [release, h, hcount]

/-! ## Calls that keep the window -/

/-- The queue and the set hold the window of the log. -/
structure Windowed (d : EventDeduplicator) (n : Nat) (log : List DeduplicationKey) : Prop where
  size : d.windowSize = n
  queue : d.keyQueue = (log.take n).reverse
  keys : ∀ key, key ∈ d.keySet ↔ key ∈ log.take n
  entered : Entered n log

theorem Windowed.lookup_eq_none (h : Windowed d n log) (hkey : key ∉ log.take n) :
    d.keySet.lookup key = none :=
  AList.lookup_eq_none.mpr (mt (h.keys key).mp hkey)

/-- A key that is inside is only marked. -/
theorem Windowed.add_again (h : Windowed d n log) (hkey : key ∈ log.take n) :
    Windowed (d.add key) n log := by
  obtain ⟨count, hcount⟩ := Option.isSome_iff_exists.mp
    (AList.lookup_isSome.mpr ((h.keys key).mpr hkey))
  obtain ⟨hqueue, hset⟩ := add_of_contains hcount
  refine ⟨add_windowSize.trans h.size, hqueue.trans h.queue, fun k => ?_, h.entered⟩
  rw [hset, AList.mem_insert, h.keys]
  constructor
  · intro hk
    cases hk with
    | inl heq => exact heq ▸ hkey
    | inr hk => exact hk
  · exact Or.inr

/-- A key that is not inside enters, and the oldest one leaves a full window for good if it is
marked once. -/
theorem Windowed.add_new (h : Windowed d n log) (hn : 1 ≤ n) (hkey : key ∉ log.take n)
    (honce : PushesOutMarkedOnce d (.add key)) : Windowed (d.add key) n (key :: log) := by
  have hnone := h.lookup_eq_none hkey
  have htake : (key :: log).take n = key :: log.take (n - 1) := by
    obtain ⟨m, rfl⟩ := Nat.exists_eq_add_of_le' hn
    rfl
  have hlength : d.keyQueue.length = (log.take n).length := by rw [h.queue, List.length_reverse]
  -- a full window pushes its oldest key out, which the condition says has one mark
  by_cases hfull : n ≤ (log.take n).length
  · rcases List.eq_nil_or_concat' (log.take n) with hnil | ⟨older, oldest, hold⟩
    · rw [hnil, List.length_nil] at hfull
      omega
    · have hqueue : d.keyQueue = oldest :: older.reverse := by simp [h.queue, hold]
      have hsize : d.windowSize ≤ d.keyQueue.length := by
        rw [h.size, hlength]
        exact hfull
      have hmark : d.keySet.lookup oldest = some 1 :=
        honce (by simp [EventDeduplicator.contains, hnone]) hsize oldest (by simp [hqueue])
      obtain ⟨hqueue', hset'⟩ := add_of_full hnone hsize hqueue
      have hrest := take_pred_of_full hfull hold
      have hnot : oldest ∉ older := by
        have hnodup := h.entered.nodup
        rw [hold] at hnodup
        intro hmem
        exact (List.nodup_append.mp hnodup).2.2 oldest hmem oldest List.mem_cons_self rfl
      refine ⟨add_windowSize.trans h.size, ?_, fun k => ?_, h.entered.cons hkey⟩
      · simp [hqueue', htake, hrest]
      · have hk := h.keys k
        rw [hold, List.mem_append, List.mem_singleton] at hk
        rw [hset', release_of_one hmark, AList.mem_insert, AList.mem_erase, hk, htake, hrest,
          List.mem_cons]
        refine or_congr_right ⟨fun hin => hin.2.resolve_right hin.1, fun hin => ⟨?_, Or.inl hin⟩⟩
        intro heq
        exact hnot (heq ▸ hin)
  · obtain ⟨hqueue', hset'⟩ := add_of_room hnone (by have := h.size; omega)
    have hshort : log.take (n - 1) = log.take n := by
      rw [List.length_take] at hfull
      rw [List.take_of_length_le (by omega), List.take_of_length_le (by omega)]
    refine ⟨add_windowSize.trans h.size, ?_, fun k => ?_, h.entered.cons hkey⟩
    · rw [hqueue', h.queue, htake, hshort, List.reverse_cons]
    · rw [hset', AList.mem_insert, h.keys, htake, hshort, List.mem_cons]

theorem Windowed.handle (h : Windowed d n log) (hn : 1 ≤ n) {call : WindowCall}
    (honce : PushesOutMarkedOnce d call) : Windowed (d.handle call) n (enter n log call) := by
  cases call with
  | add key =>
    simp only [enter, accept, List.map_id, id]
    split
    · next hkey => exact h.add_again hkey
    · next hkey => exact h.add_new hn hkey honce
  | clear =>
    refine ⟨h.size, ?_, fun k => ?_, .nil⟩
    · simp [EventDeduplicator.handle, EventDeduplicator.clear, enter]
    · simp [EventDeduplicator.handle, EventDeduplicator.clear, enter]

theorem windowed_afterCalls (hn : 1 ≤ n) (calls : List WindowCall)
    (honce : ∀ before call, before ++ [call] <+: calls →
      PushesOutMarkedOnce (afterCalls n before) call) :
    Windowed (afterCalls n calls) n (enteredKeys n calls) := by
  induction calls using List.reverseRecOn with
  | nil =>
    refine ⟨rfl, ?_, fun k => ?_, .nil⟩
    · simp [afterCalls, enteredKeys, EventDeduplicator.new]
    · simp [afterCalls, enteredKeys, EventDeduplicator.new]
  | append_singleton calls call ih =>
    rw [afterCalls_concat, enteredKeys_concat]
    refine (ih fun before call' h => ?_).handle hn (honce calls call (List.prefix_refl _))
    exact honce before call' (h.trans (List.prefix_append calls [call]))

theorem Windowed.isWindow {calls : List WindowCall}
    (h : Windowed (afterCalls n calls) n (enteredKeys n calls)) : IsWindow n calls where
  keys key := by rw [h.keys, h.queue, List.mem_reverse]
  nodup := by
    rw [h.queue, List.nodup_reverse]
    exact h.entered.nodup
  size := by
    rw [h.queue, List.length_reverse]
    exact List.length_take_le _ _
  contains key := by rw [contains_iff, h.keys]

/-! ## The call that does not -/

/-- A key that is pushed out with another mark on it stays in the set. -/
theorem IsWindow.lost {calls : List WindowCall} (h : IsWindow n calls) {call : WindowCall}
    (honce : ¬ PushesOutMarkedOnce (afterCalls n calls) call) : ¬ IsWindow n (calls ++ [call]) := by
  cases call with
  | clear => exact absurd trivial honce
  | add key =>
    simp only [PushesOutMarkedOnce, not_forall] at honce
    obtain ⟨hkey, hfull, oldest, holdest, hmark⟩ := honce
    have hnone : (afterCalls n calls).keySet.lookup key = none := by
      simpa [EventDeduplicator.contains] using hkey
    obtain ⟨rest, hqueue⟩ := List.head?_eq_some_iff.mp holdest
    obtain ⟨hqueue', hset'⟩ := add_of_full hnone hfull hqueue
    have hmem : oldest ∈ (afterCalls n calls).keySet := by
      rw [h.keys, hqueue]
      exact List.mem_cons_self
    obtain ⟨count, hcount⟩ := Option.isSome_iff_exists.mp (AList.lookup_isSome.mpr hmem)
    intro hafter
    have hdrift := hafter.keys oldest
    rw [afterCalls_concat] at hdrift
    have hne : count ≠ 1 := by
      rintro rfl
      exact hmark hcount
    simp only [EventDeduplicator.handle, hqueue', hset', release_of_more hcount hne,
      AList.mem_insert, List.mem_append] at hdrift
    rcases hdrift.mp (Or.inr (Or.inl trivial)) with hrest | hself
    · have hnodup := h.nodup
      rw [hqueue] at hnodup
      exact (List.nodup_cons.mp hnodup).1 hrest
    · rw [List.mem_singleton] at hself
      rw [hself, hnone] at hcount
      cases hcount

/-- **The deduplicator is a window, in every state of a run, exactly when every key that is pushed
out has been added once.** -/
theorem window_iff (hn : 1 ≤ n) (calls : List WindowCall) :
    (∀ before, before <+: calls → IsWindow n before) ↔
      ∀ before call, before ++ [call] <+: calls →
        PushesOutMarkedOnce (afterCalls n before) call := by
  constructor
  · intro h before call hcall
    by_contra honce
    exact (h before ((List.prefix_append before [call]).trans hcall)).lost honce (h _ hcall)
  · intro honce before hbefore
    refine (windowed_afterCalls hn before fun earlier call hcall => ?_).isWindow
    exact honce earlier call (hcall.trans hbefore)

def bookKey (lsn : String) : DeduplicationKey := .new lsn none "books"

/-- A key that is added twice outlives its place in a window of one. -/
theorem twice_added_not_forgotten :
    ¬ ∀ (n : Nat) (calls : List WindowCall), 1 ≤ n → IsWindow n calls := by
  intro hall
  have h := hall 1 [.add (bookKey "0/1"), .add (bookKey "0/1"), .add (bookKey "0/2")] le_rfl
  have hgone := (h.keys (bookKey "0/1")).mp (by decide)
  revert hgone
  decide

/-- A key that is pushed out after it has been added once. -/
theorem window_books :
    (afterCalls 1 [.add (bookKey "0/1"), .add (bookKey "0/2")]).contains (bookKey "0/1") = false ∧
      ∀ before, before <+: [WindowCall.add (bookKey "0/1"), .add (bookKey "0/2")] →
        IsWindow 1 before := by
  refine ⟨by decide, (window_iff le_rfl _).mpr fun before call hcall => ?_⟩
  rcases before with _ | ⟨first, _ | ⟨second, rest⟩⟩
  · obtain ⟨rfl, -⟩ := List.cons_prefix_cons.mp hcall
    intro _ hfull
    exact absurd hfull (by decide)
  · obtain ⟨rfl, hsecond⟩ := List.cons_prefix_cons.mp hcall
    obtain ⟨rfl, -⟩ := List.cons_prefix_cons.mp hsecond
    intro _ _ oldest holdest
    cases holdest
    rfl
  · have hlength := hcall.length_le
    simp at hlength

end EventDeduplicator

end MeiliBridge
