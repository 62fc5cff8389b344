import MeiliBridge.Lib.Loop
import MeiliBridge.Models.Event

/-!
# The bounded store of dead letters

`MemoryDeadLetterStorage` of the recovery module keeps its entries in a queue, oldest first. What
the bound is for: storing an entry leaves the newest ones, as many as the bound allows
(`Trimmed`). The loop that makes room is left only below the bound, so a bound of nothing is never
left again (`store_law_iff`).
-/

set_option autoImplicit false

namespace MeiliBridge

open Loop

namespace Recovery

structure DeadLetterEntry where
  id : String
  taskId : String
  event : Event
  error : String
  errorCount : UInt32
  firstErrorTime : Nat
  lastErrorTime : Nat
  metadata : Value

structure MemoryDeadLetterStorage where
  /-- oldest first -/
  entries : List DeadLetterEntry
  maxEntries : Nat

namespace MemoryDeadLetterStorage

def new (maxEntries : Nat) : MemoryDeadLetterStorage := ⟨[], maxEntries⟩

/-- One turn of the loop that makes room; there may be nothing to `pop_front`. -/
def evict (maxEntries : Nat) (entries : List DeadLetterEntry) :
    Turn (List DeadLetterEntry) (List DeadLetterEntry) :=
  if maxEntries ≤ entries.length then .next (entries.drop 1) else .done entries

/-- `store`, if its loop is left within `fuel` turns -/
def store (fuel : Nat) (s : MemoryDeadLetterStorage) (entry : DeadLetterEntry) :
    Option MemoryDeadLetterStorage :=
  (run (evict s.maxEntries) fuel s.entries).map fun entries =>
    { s with entries := entries ++ [entry] }

/-- `delete` -/
def delete (s : MemoryDeadLetterStorage) (id : String) : MemoryDeadLetterStorage :=
  { s with entries := s.entries.filter (·.id != id) }

inductive StoreCall where
  | store (entry : DeadLetterEntry)
  | delete (id : String)

/-- The call comes back, and leaves the storage as it is said. -/
def Returns (s : MemoryDeadLetterStorage) : StoreCall → MemoryDeadLetterStorage → Prop
  | .store entry, s' => ∃ fuel, s.store fuel entry = some s'
  | .delete id, s' => s' = s.delete id

/-- What is kept of some entries: the newest, and as many as there may be. -/
def Trimmed (maxEntries : Nat) (entries kept : List DeadLetterEntry) : Prop :=
  ∃ n, kept = entries.drop n ∧ kept.length ≤ maxEntries ∧
    ∀ m, (entries.drop m).length ≤ maxEntries → n ≤ m

/-- In the run of these calls every `store` comes back, and leaves what is kept of the entries and
the new one. -/
def StoreLaw : MemoryDeadLetterStorage → List StoreCall → Prop
  | _, [] => True
  | s, .store entry :: calls => ∃ s', s.Returns (.store entry) s' ∧
      s'.maxEntries = s.maxEntries ∧
      Trimmed s.maxEntries (s.entries ++ [entry]) s'.entries ∧ StoreLaw s' calls
  | s, .delete id :: calls => StoreLaw (s.delete id) calls

/-! ## The loop that makes room -/

/-- The oldest entries go until there is room for one. -/
theorem evict_finishes {maxEntries : Nat} (hmax : 0 < maxEntries) (entries : List DeadLetterEntry) :
    Finishes (evict maxEntries) entries (entries.drop (entries.length + 1 - maxEntries)) := by
  induction entries with
  | nil =>
    apply Finishes.of_done
    simp [evict, Nat.not_le.mpr hmax]
  | cons e entries ih =>
    by_cases hfull : maxEntries ≤ entries.length + 1
    · have hdrop : (e :: entries).drop ((e :: entries).length + 1 - maxEntries) =
          entries.drop (entries.length + 1 - maxEntries) := by
        have hcount : (e :: entries).length + 1 - maxEntries =
            entries.length + 1 - maxEntries + 1 := Nat.succ_sub hfull
        rw [hcount, List.drop_succ_cons]
      rw [hdrop]
      apply Finishes.of_next _ ih
      simp [evict, hfull]
    · have hroom : (e :: entries).length + 1 - maxEntries = 0 :=
        Nat.sub_eq_zero_of_le (Nat.lt_of_not_le hfull)
      rw [hroom, List.drop_zero]
      apply Finishes.of_done
      simp [evict, hfull]

/-- With a bound of nothing there is never room. -/
theorem evict_diverges (entries : List DeadLetterEntry) : Diverges (evict 0) entries :=
  diverges_of_invariant (fun _ => True)
    (fun entries _ => ⟨entries.drop 1, by simp [evict], trivial⟩) trivial

variable {s s' : MemoryDeadLetterStorage} {entry : DeadLetterEntry}

/-- What `store` leaves: the entries that make room, and the new one after them. -/
theorem store_returns (hmax : 0 < s.maxEntries) (entry : DeadLetterEntry) :
    s.Returns (.store entry) { s with
      entries := (s.entries ++ [entry]).drop (s.entries.length + 1 - s.maxEntries) } := by
  obtain ⟨fuel, hfuel⟩ := evict_finishes hmax s.entries
  have hle : s.entries.length + 1 - s.maxEntries ≤ s.entries.length := by omega
  refine ⟨fuel, ?_⟩
  rw [store, hfuel, Option.map_some, List.drop_append_of_le_length hle]

theorem trimmed_drop (maxEntries : Nat) (entries : List DeadLetterEntry) :
    Trimmed maxEntries entries (entries.drop (entries.length - maxEntries)) := by
  refine ⟨entries.length - maxEntries, rfl, ?_, fun m hm => ?_⟩
  · rw [List.length_drop]
    omega
  · rw [List.length_drop] at hm
    omega

theorem store_never_returns (hmax : s.maxEntries = 0) (entry : DeadLetterEntry) :
    ¬ s.Returns (.store entry) s' := by
  intro h
  obtain ⟨fuel, hfuel⟩ := h
  rw [store, hmax, evict_diverges s.entries fuel] at hfuel
  cases hfuel

/-! ## Runs -/

/-- With a bound the law holds in every run. -/
theorem storeLaw_of_bound (calls : List StoreCall) (hmax : 0 < s.maxEntries) :
    s.StoreLaw calls := by
  induction calls generalizing s with
  | nil => trivial
  | cons call calls ih =>
    cases call with
    | store entry =>
      have htrimmed := trimmed_drop s.maxEntries (s.entries ++ [entry])
      rw [List.length_append, List.length_singleton] at htrimmed
      exact ⟨_, store_returns hmax entry, rfl, htrimmed, ih hmax⟩
    | delete id => exact ih hmax

/-- Without one it holds as long as nothing is stored. -/
theorem storeLaw_iff_of_no_bound (calls : List StoreCall) (hmax : s.maxEntries = 0) :
    s.StoreLaw calls ↔ ∀ call ∈ calls, ∃ id, call = .delete id := by
  induction calls generalizing s with
  | nil => simp [StoreLaw]
  | cons call calls ih =>
    rw [List.forall_mem_cons]
    cases call with
    | store entry =>
      constructor
      · intro h
        obtain ⟨s', hreturns, -⟩ := h
        exact absurd hreturns (store_never_returns hmax entry)
      · intro h
        obtain ⟨id, hid⟩ := h.1
        cases hid
    | delete id =>
      have hrest : (s.delete id).StoreLaw calls ↔ _ := ih hmax
      rw [StoreLaw, hrest]
      exact (and_iff_right ⟨id, rfl⟩).symm

/-- **In every run on a new storage each `store` comes back and keeps the newest entries, if and
only if there is a bound for them or nothing is stored.** -/
theorem store_law_iff (maxEntries : Nat) (calls : List StoreCall) :
    (new maxEntries).StoreLaw calls ↔
      0 < maxEntries ∨ ∀ call ∈ calls, ∃ id, call = .delete id := by
  rcases Nat.eq_zero_or_pos maxEntries with rfl | hmax
  · rw [storeLaw_iff_of_no_bound calls rfl]
    simp
  · exact iff_of_true (storeLaw_of_bound calls hmax) (Or.inl hmax)

def heartbeatEntry (id : String) : DeadLetterEntry where
  id := id
  taskId := "books"
  event := .heartbeat
  error := "timeout"
  errorCount := 1
  firstErrorTime := 0
  lastErrorTime := 0
  metadata := .null

/-- The first entry of a storage with no room for it is never stored. -/
theorem store_not_always_returns :
    ¬ ∀ (maxEntries : Nat) (calls : List StoreCall), (new maxEntries).StoreLaw calls := by
  intro h
  obtain ⟨s', hreturns, -⟩ := h 0 [.store (heartbeatEntry "a")]
  exact store_never_returns rfl _ hreturns

end MemoryDeadLetterStorage

end Recovery

end MeiliBridge
