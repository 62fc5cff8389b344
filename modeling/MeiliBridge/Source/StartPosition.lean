import MeiliBridge.Delivery.LsnOrder
import MeiliBridge.Source.Replication

/-!
# The position that a source starts from

`start()` loads the checkpoint of each task of a source and keeps the earliest position it sees: a
loaded position takes the place of the one kept so far unless it is after it. What it has kept in
the end is handed to the source's adapter. A later position would skip changes that the slowest task
has not delivered.

A task without a checkpoint, and one whose checkpoint cannot be loaded, is only logged.
-/

set_option autoImplicit false

namespace MeiliBridge

open KeyOrder

namespace StartPosition

/-- The answers of `load_checkpoint` for the tasks of a source, in their order; there are none
without a checkpoint manager. -/
abbrev Loads := List (String × Result (Option Checkpoint))

/-- The checkpoints among the answers. -/
def loaded (loads : Loads) : List Checkpoint :=
  loads.filterMap fun load =>
    match load.2 with
    | .ok checkpoint => checkpoint
    | .error _ => none

/-- What the loop over the tasks writes. -/
structure Found where
  /-- the in-memory checkpoints -/
  checkpoints : Dict Position
  earliestPosition : Option Position

/-- One round of the loop. -/
def Found.load (found : Found) (load : String × Result (Option Checkpoint)) : Found :=
  match load.2 with
  | .ok (some checkpoint) =>
    { checkpoints := found.checkpoints.insert load.1 checkpoint.position
      earliestPosition :=
        match found.earliestPosition with
        | none => some checkpoint.position
        | some current =>
          if !checkpoint.position.isAfter current then some checkpoint.position else some current }
  | .ok none | .error _ => found

def loadCheckpoints (checkpoints : Dict Position) (loads : Loads) : Found :=
  loads.foldl Found.load ⟨checkpoints, none⟩

/-- The position that `start` passes to `set_start_position`, if any. -/
def startPosition (checkpoints : Dict Position) (loads : Loads) : Option Position :=
  (loadCheckpoints checkpoints loads).earliestPosition

/-- One of the loaded positions, none of which is before it: neither by `is_after` nor by the
numbers of the LSNs. -/
structure EarliestOf (checkpoints : List Checkpoint) (position : Position) : Prop where
  one : ∃ cp ∈ checkpoints, cp.position = position
  least : ∀ cp ∈ checkpoints, position.isAfter cp.position = false
  numbers : ∀ cp ∈ checkpoints, ∀ lsn lsn' hi lo hi' lo', position = .postgreSQL lsn →
    cp.position = .postgreSQL lsn' → IsLsn lsn hi lo → IsLsn lsn' hi' lo' →
    hi < hi' ∨ hi = hi' ∧ lo ≤ lo'

/-- The position is an LSN of the form hex/hex. -/
def WellFormed (position : Position) : Prop :=
  ∃ lsn hi lo, position = .postgreSQL lsn ∧ IsLsn lsn hi lo

/-! ## The loop as a search for the earliest -/

theorem load_earliest (found : Found) (load : String × Result (Option Checkpoint)) :
    (found.load load).earliestPosition =
      ((loaded [load]).map (·.position)).foldl (keepEarlier Position.isAfter)
        found.earliestPosition := by
  obtain ⟨taskId, answer⟩ := load
  cases answer with
  | error e => rfl
  | ok checkpoint =>
    cases checkpoint with
    | none => rfl
    | some cp =>
      cases hfound : found.earliestPosition with
      | none => simp [Found.load, loaded, hfound, keepEarlier]
      | some current =>
        cases hafter : cp.position.isAfter current with
        | true => simp [Found.load, loaded, hfound, keepEarlier, hafter]
        | false => simp [Found.load, loaded, hfound, keepEarlier, hafter]

theorem foldl_load (loads : Loads) (found : Found) :
    (loads.foldl Found.load found).earliestPosition =
      ((loaded loads).map (·.position)).foldl (keepEarlier Position.isAfter)
        found.earliestPosition := by
  induction loads generalizing found with
  | nil => rfl
  | cons load loads ih =>
    have hcons : loaded (load :: loads) = loaded [load] ++ loaded loads := by
      rw [loaded, loaded, loaded, ← List.filterMap_append]
      rfl
    rw [List.foldl_cons, ih, load_earliest, hcons, List.map_append, List.foldl_append]

/-- **`start` searches for the earliest of the loaded positions.** -/
theorem startPosition_eq (checkpoints : Dict Position) (loads : Loads) :
    startPosition checkpoints loads =
      earliest Position.isAfter ((loaded loads).map (·.position)) :=
  foldl_load loads _

/-- What a restarted process finds among the checkpoints it has loaded. -/
theorem startPosition_restart (checkpoints : Dict Position) (loads : Loads) :
    startPosition checkpoints loads = MeiliBridge.earliestPosition (loaded loads) := by
  rw [startPosition_eq, earliest, MeiliBridge.earliestPosition, List.foldl_map]
  congr 1
  funext found cp
  cases found <;> rfl

/-- The numbers of a position, by which `is_after` compares. -/
def rank : Position → ℕ ×ₗ ℕ
  | .postgreSQL lsn => (lsnKey lsn).getD (toLex (0, 0))
  | _ => toLex (0, 0)

theorem rank_postgreSQL {lsn : String} {hi lo : Nat} (h : IsLsn lsn hi lo) :
    rank (.postgreSQL lsn) = toLex (hi, lo) := by
  rw [rank, h.key]
  rfl

theorem isAfter_iff_rank {p q : Position} (hp : WellFormed p) (hq : WellFormed q) :
    p.isAfter q = true ↔ rank q < rank p := by
  obtain ⟨lsn, hi, lo, rfl, hlsn⟩ := hp
  obtain ⟨lsn', hi', lo', rfl, hlsn'⟩ := hq
  rw [isAfter_iff_key, rank_postgreSQL hlsn, rank_postgreSQL hlsn', hlsn.key, hlsn'.key]
  simp

/-- **The start position is the earliest checkpoint**, if the loaded positions are LSNs of the form
hex/hex; and there is none exactly when nothing was loaded. -/
theorem start_position_earliest (checkpoints : Dict Position) (loads : Loads)
    (hlsn : ∀ cp ∈ loaded loads, WellFormed cp.position) :
    (∀ position, startPosition checkpoints loads = some position →
      EarliestOf (loaded loads) position) ∧
    (startPosition checkpoints loads = none ↔ loaded loads = []) := by
  rw [startPosition_eq]
  refine ⟨fun position hposition => ?_, ?_⟩
  · have hformed : ∀ p ∈ (loaded loads).map (·.position), WellFormed p := by
      intro p hp
      obtain ⟨cp, hcp, rfl⟩ := List.mem_map.mp hp
      exact hlsn cp hcp
    have hmem := earliest_mem hposition
    have hleast : ∀ p ∈ (loaded loads).map (·.position), rank position ≤ rank p :=
      earliest_least (fun p hp q hq => isAfter_iff_rank (hformed p hp) (hformed q hq)) hposition
    refine ⟨List.mem_map.mp hmem, fun cp hcp => ?_, ?_⟩
    · have hcp' : cp.position ∈ (loaded loads).map (·.position) := List.mem_map_of_mem hcp
      rw [Bool.eq_false_iff]
      intro hafter
      exact absurd ((isAfter_iff_rank (hformed _ hmem) (hformed _ hcp')).mp hafter)
        (not_lt.mpr (hleast _ hcp'))
    · intro cp hcp lsn lsn' hi lo hi' lo' hlsn hlsn' h h'
      have hle := hleast _ (List.mem_map_of_mem hcp)
      rw [hlsn, hlsn', rank_postgreSQL h, rank_postgreSQL h'] at hle
      exact Prod.Lex.toLex_le_toLex.mp hle
  · rw [earliest_eq_none_iff, List.map_eq_nil_iff]

/-- Four tasks, of which one has no checkpoint and one fails to load it. -/
def fourTasks : Loads :=
  [("books", .ok (some ⟨"c1", "books", .postgreSQL "0/A000", 1, .null⟩)), ("orders", .ok none),
    ("users", .error .channelReceive),
    ("carts", .ok (some ⟨"c2", "carts", .postgreSQL "0/9000", 2, .null⟩))]

/-- The source starts from the checkpoint of the slower one of the other two. -/
theorem start_position_earliest_carts :
    startPosition ∅ fourTasks = some (.postgreSQL "0/9000") ∧
      EarliestOf (loaded fourTasks) (.postgreSQL "0/9000") := by
  have hposition : startPosition ∅ fourTasks = some (.postgreSQL "0/9000") := by
    rw [startPosition_eq]
    decide
  have hbooks : IsLsn "0/A000" 0 0xA000 :=
    ⟨"0", "A000", rfl, ⟨by decide, rfl, by decide⟩, ⟨by decide, rfl, by decide⟩⟩
  have hcarts : IsLsn "0/9000" 0 0x9000 :=
    ⟨"0", "9000", rfl, ⟨by decide, rfl, by decide⟩, ⟨by decide, rfl, by decide⟩⟩
  refine ⟨hposition, (start_position_earliest ∅ fourTasks ?_).1 _ hposition⟩
  intro cp hcp
  rcases List.mem_cons.mp hcp with rfl | hcp
  · exact ⟨_, _, _, rfl, hbooks⟩
  · obtain rfl := List.mem_singleton.mp hcp
    exact ⟨_, _, _, rfl, hcarts⟩

end StartPosition

end MeiliBridge
