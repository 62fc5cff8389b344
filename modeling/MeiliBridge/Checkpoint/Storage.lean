import Mathlib.Data.List.AList
import MeiliBridge.Config
import MeiliBridge.Models.Event

/-!
# Maps of checkpoints by task

What `MemoryStorage` and the manager's buffer have in common: a hash map in which a checkpoint is
only ever put under its own task id. The map carries that fact, so nothing that reads it has to ask
which of the two ids a checkpoint is found by.
-/

set_option autoImplicit false

namespace MeiliBridge

structure CheckpointMap where
  entries : Dict Checkpoint
  keyed : ∀ taskId cp, entries.lookup taskId = some cp → cp.taskId = taskId

namespace CheckpointMap

def empty : CheckpointMap := ⟨∅, nofun⟩

/-- `load` -/
def lookup (m : CheckpointMap) (taskId : String) : Option Checkpoint := m.entries.lookup taskId

/-- `save` -/
def save (m : CheckpointMap) (cp : Checkpoint) : CheckpointMap where
  entries := m.entries.insert cp.taskId cp
  keyed taskId cp' h := by
    by_cases htask : taskId = cp.taskId
    · subst htask
      rw [AList.lookup_insert] at h
      exact Option.some.inj h ▸ rfl
    · rw [AList.lookup_insert_ne htask] at h
      exact m.keyed taskId cp' h

/-- `delete` -/
def delete (m : CheckpointMap) (taskId : String) : CheckpointMap where
  entries := m.entries.erase taskId
  keyed other cp h := by
    by_cases htask : other = taskId
    · subst htask
      simp [AList.lookup_erase] at h
    · rw [AList.lookup_erase_ne htask] at h
      exact m.keyed other cp h

/-- `list`, in the order of the map -/
def list (m : CheckpointMap) : List Checkpoint := m.entries.entries.map Sigma.snd

/-- `len` -/
def size (m : CheckpointMap) : Nat := m.entries.entries.length

/-- `retain`: the entries whose key meets `p`. -/
def retainEntries (d : Dict Checkpoint) (p : String → Bool) : Dict Checkpoint where
  entries := d.entries.filter fun entry => p entry.1
  nodupKeys := d.nodupKeys.sublist List.filter_sublist

theorem lookup_retainEntries (d : Dict Checkpoint) (p : String → Bool) (taskId : String) :
    (retainEntries d p).lookup taskId = if p taskId then d.lookup taskId else none := by
  ext cp
  have hd : cp ∈ d.lookup taskId ↔ ⟨taskId, cp⟩ ∈ d.entries := List.mem_dlookup_iff d.nodupKeys
  have hkept : cp ∈ (retainEntries d p).lookup taskId ↔
      ⟨taskId, cp⟩ ∈ (retainEntries d p).entries :=
    List.mem_dlookup_iff (retainEntries d p).nodupKeys
  simp only [Option.mem_def] at hd hkept
  rw [hkept, retainEntries, List.mem_filter, ← hd]
  cases p taskId <;> simp

def retain (m : CheckpointMap) (p : String → Bool) : CheckpointMap where
  entries := retainEntries m.entries p
  keyed taskId cp h := by
    rw [lookup_retainEntries] at h
    cases hp : p taskId with
    | true => exact m.keyed taskId cp (by simpa [hp] using h)
    | false => simp [hp] at h

/-! ## What each operation does to one task -/

variable (m : CheckpointMap)

@[simp] theorem lookup_empty (taskId : String) : empty.lookup taskId = none := rfl

@[simp] theorem lookup_save (cp : Checkpoint) (taskId : String) :
    (m.save cp).lookup taskId = if taskId = cp.taskId then some cp else m.lookup taskId := by
  by_cases htask : taskId = cp.taskId
  · subst htask
    simp [lookup, save]
  · simp [lookup, save, htask]

@[simp] theorem lookup_delete (other taskId : String) :
    (m.delete other).lookup taskId = if taskId = other then none else m.lookup taskId := by
  by_cases htask : taskId = other
  · subst htask
    simp [lookup, delete, AList.lookup_erase]
  · simp [lookup, delete, htask, AList.lookup_erase_ne htask]

@[simp] theorem lookup_retain (p : String → Bool) (taskId : String) :
    (m.retain p).lookup taskId = if p taskId then m.lookup taskId else none :=
  lookup_retainEntries m.entries p taskId

theorem mem_entries {taskId : String} {cp : Checkpoint} :
    ⟨taskId, cp⟩ ∈ m.entries.entries ↔ m.lookup taskId = some cp :=
  (List.mem_dlookup_iff m.entries.nodupKeys).symm

/-- The list holds what the lookups find. -/
theorem mem_list {cp : Checkpoint} : cp ∈ m.list ↔ m.lookup cp.taskId = some cp := by
  constructor
  · intro h
    obtain ⟨⟨taskId, _⟩, hmem, rfl⟩ := List.mem_map.mp h
    have hlookup := m.mem_entries.mp hmem
    obtain rfl := m.keyed _ _ hlookup
    exact hlookup
  · exact fun h => List.mem_map.mpr ⟨⟨cp.taskId, cp⟩, m.mem_entries.mpr h, rfl⟩

theorem nodup_list : m.list.Nodup := by
  refine List.Nodup.map_on ?_ m.entries.nodupKeys.nodup
  rintro ⟨taskId, cp⟩ hmem ⟨taskId', _⟩ hmem' rfl
  rw [← m.keyed _ _ (m.mem_entries.mp hmem), ← m.keyed _ _ (m.mem_entries.mp hmem')]

/-- There is one checkpoint for each task in the list. -/
theorem eq_of_mem_list {cp cp' : Checkpoint} (h : cp ∈ m.list) (h' : cp' ∈ m.list)
    (htask : cp.taskId = cp'.taskId) : cp = cp' := by
  rw [mem_list] at h h'
  rw [htask] at h
  exact Option.some.inj (h.symm.trans h')

end CheckpointMap

end MeiliBridge
