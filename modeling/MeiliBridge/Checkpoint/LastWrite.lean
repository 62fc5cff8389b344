import MeiliBridge.Checkpoint.Manager

/-!
# The last write about a task

The manager takes its commands one by one and flushes in between. Which position a `Load` of a task
finds then depends on the last command about the task: a `Save` leaves its position, a `Delete` that
succeeds leaves none, and everything else leaves alone what was there.
-/

set_option autoImplicit false

namespace MeiliBridge

/-- The position that a `Load` of the task finds. -/
def ManagerState.found (s : ManagerState) (taskId : String) : Option Position :=
  (s.view taskId).map (·.position)

theorem ManagerState.found_eq_none {s : ManagerState} {taskId : String} :
    s.found taskId = none ↔ s.pending.lookup taskId = none ∧ s.storage.lookup taskId = none := by
  rw [found, Option.map_eq_none_iff, view, Option.or_eq_none_iff]

/-- What a command makes of a task's position, where nothing fails. -/
def CheckpointCommand.write (taskId : String) (position : Option Position) :
    CheckpointCommand → Option Position
  | .save other saved => if other = taskId then some saved else position
  | .delete other => if other = taskId then none else position
  | .load _ | .list | .flush => position

namespace CheckpointManager

/-- What the commands make of a task's position, one after the other. -/
def lastSaved (taskId : String) (position : Option Position) (cmds : List CheckpointCommand) :
    Option Position :=
  cmds.foldl (CheckpointCommand.write taskId) position

variable {taskId : String} {position : Option Position} {cmds : List CheckpointCommand}
  {cmd : CheckpointCommand} {batchSize : Nat} {c : ManagerChoice} {s : ManagerState}

@[simp] theorem lastSaved_nil : lastSaved taskId position [] = position := rfl

theorem lastSaved_append (more : List CheckpointCommand) :
    lastSaved taskId position (cmds ++ more) =
      lastSaved taskId (lastSaved taskId position cmds) more :=
  List.foldl_append

@[simp] theorem lastSaved_concat :
    lastSaved taskId position (cmds ++ [cmd]) =
      cmd.write taskId (lastSaved taskId position cmds) := by
  rw [lastSaved_append]
  rfl

theorem eq_of_about (h : About taskId cmd = true) :
    (∃ saved, cmd = .save taskId saved) ∨ cmd = .delete taskId := by
  cases cmd with
  | save other saved =>
    obtain rfl : other = taskId := by simpa [About] using h
    exact .inl ⟨saved, rfl⟩
  | delete other =>
    obtain rfl : other = taskId := by simpa [About] using h
    exact .inr rfl
  | load other => cases h
  | list => cases h
  | flush => cases h

@[simp] theorem write_save (saved : Position) :
    (CheckpointCommand.save taskId saved).write taskId position = some saved :=
  if_pos rfl

@[simp] theorem write_delete : (CheckpointCommand.delete taskId).write taskId position = none :=
  if_pos rfl

theorem write_other (h : About taskId cmd = false) : cmd.write taskId position = position := by
  cases cmd with
  | save other saved =>
    have hother : ¬ other = taskId := by simpa [About] using h
    exact if_neg hother
  | delete other =>
    have hother : ¬ other = taskId := by simpa [About] using h
    exact if_neg hother
  | load other => rfl
  | list => rfl
  | flush => rfl

/-- A position that the commands leave does not depend on anything but the one from before. -/
theorem lastSaved_mono {other : Option Position} (h : ∀ p, position = some p → other = some p)
    {saved : Position} (hsaved : lastSaved taskId position cmds = some saved) :
    lastSaved taskId other cmds = some saved := by
  induction cmds generalizing position other with
  | nil => exact h saved hsaved
  | cons cmd cmds ih =>
    refine ih (fun p hp => ?_) hsaved
    cases habout : About taskId cmd with
    | false =>
      rw [write_other habout] at hp ⊢
      exact h p hp
    | true =>
      rcases eq_of_about habout with ⟨q, rfl⟩ | rfl
      · rwa [write_save] at hp ⊢
      · rw [write_delete] at hp
        cases hp

/-- Where no command saves the task, its position is the one from before or it has none. -/
theorem lastSaved_of_not_saved (h : ∀ saved, .save taskId saved ∉ cmds) :
    lastSaved taskId position cmds = position ∨ lastSaved taskId position cmds = none := by
  induction cmds generalizing position with
  | nil => exact .inl rfl
  | cons cmd cmds ih =>
    have hrest : ∀ saved, .save taskId saved ∉ cmds :=
      fun saved hsaved => h saved (List.mem_cons_of_mem _ hsaved)
    show lastSaved taskId (cmd.write taskId position) cmds = position ∨
      lastSaved taskId (cmd.write taskId position) cmds = none
    cases habout : About taskId cmd with
    | false =>
      rw [write_other habout]
      exact ih hrest
    | true =>
      rcases eq_of_about habout with ⟨saved, rfl⟩ | rfl
      · exact absurd List.mem_cons_self (h saved)
      · rw [write_delete]
        exact .inr ((ih hrest).elim id id)

theorem found_flushPending (reply : String → Reply) (s : ManagerState) (taskId : String) :
    (flushPending reply s).found taskId = s.found taskId := by
  rw [ManagerState.found, view_flushPending]
  rfl

/-- A command that is handled does to a task's position what it says, unless it deletes it. -/
theorem found_handle (h : cmd ≠ .delete taskId) :
    (handle batchSize c s (.command cmd)).2.found taskId = cmd.write taskId (s.found taskId) := by
  cases habout : About taskId cmd with
  | false =>
    rw [write_other habout, ManagerState.found, view_handle_other habout]
    rfl
  | true =>
    obtain ⟨saved, rfl⟩ := (eq_of_about habout).resolve_right h
    rw [ManagerState.found, view_handle_save, write_save]
    rfl

/-- A `Delete` does so if the storage goes along. -/
theorem found_handle_delete (h : c.delete = .succeeds) :
    (handle batchSize c s (.command (.delete taskId))).2.found taskId = none := by
  rw [ManagerState.found_eq_none]
  simp [handle, h, Reply.call]

/-- A position that a command leaves the manager has, even if a `Delete` fails. -/
theorem found_of_write {saved : Position} (h : cmd.write taskId (s.found taskId) = some saved) :
    (handle batchSize c s (.command cmd)).2.found taskId = some saved := by
  have hdelete : cmd ≠ .delete taskId := by
    rintro rfl
    simp at h
  rw [found_handle hdelete, h]

/-- After a flush in which every save takes effect the storage holds what a `Load` would find. -/
theorem storage_flushPending {reply : String → Reply} (h : (reply taskId).takesEffect = true) :
    (flushPending reply s).storage.lookup taskId = s.view taskId := by
  rw [flushPending_storage, ManagerState.view]
  cases s.pending.lookup taskId with
  | none => rfl
  | some cp => exact if_pos h

end CheckpointManager

end MeiliBridge
