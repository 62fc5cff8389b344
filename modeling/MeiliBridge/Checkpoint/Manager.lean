import MeiliBridge.Checkpoint.Storage

/-!
# The checkpoint manager

`CheckpointManager::process_commands`: saved checkpoints wait in a buffer, which is flushed to the
storage when it has grown to the batch size, when the timer ticks and on command. A hash map has no
order of its own, and a flush saves each task once, so what the environment decides about the saves
of one flush is a reply for each task.
-/

set_option autoImplicit false

namespace MeiliBridge

inductive CheckpointCommand where
  | save (taskId : String) (position : Position)
  | load (taskId : String)
  | delete (taskId : String)
  | list
  | flush

/-- What `process_commands` waits for: a command, or a tick of its timer. -/
inductive ManagerInput where
  | command (cmd : CheckpointCommand)
  | tick

/-- What is sent back over the response channel of a command. -/
inductive ManagerAnswer where
  | none
  | loaded (checkpoint : Option Checkpoint)
  | listed (checkpoints : List Checkpoint)

/-- What the environment decides while one input is handled. -/
structure ManagerChoice where
  uuid : String
  now : Nat
  /-- how the storage answers a save about a task -/
  save : String → Reply
  load : Reply
  delete : Reply
  list : Reply

structure ManagerState where
  pending : CheckpointMap
  storage : CheckpointMap

/-- What a `Load` of the task finds: its checkpoint in the buffer, or else the stored one. -/
def ManagerState.view (s : ManagerState) (taskId : String) : Option Checkpoint :=
  (s.pending.lookup taskId).or (s.storage.lookup taskId)

namespace CheckpointManager

/-- The saves of one flush, and the tasks whose save has failed. -/
def saveEach (reply : String → Reply) :
    List Checkpoint → CheckpointMap → CheckpointMap × List String
  | [], storage => (storage, [])
  | cp :: cps, storage =>
    let (saved, storage) := (reply cp.taskId).call storage (storage.save cp)
    let (storage, failed) := saveEach reply cps storage
    match saved with
    | .ok () => (storage, failed)
    | .error _ => (storage, cp.taskId :: failed)

/-- `flush_pending`: the checkpoints whose save has failed stay in the buffer. -/
def flushPending (reply : String → Reply) (s : ManagerState) : ManagerState :=
  if s.pending.list = [] then s
  else
    let (storage, failed) := saveEach reply s.pending.list s.storage
    { pending := s.pending.retain fun taskId => failed.contains taskId, storage }

/-- The checkpoint that a `Save` command builds. -/
def newCheckpoint (c : ManagerChoice) (taskId : String) (position : Position) : Checkpoint :=
  ⟨c.uuid, taskId, position, c.now, .null⟩

/-- The stored checkpoints of the tasks that are not in the list yet. -/
def addStored : List Checkpoint → List Checkpoint → List Checkpoint
  | [], all => all
  | cp :: cps, all =>
    if all.any (·.taskId = cp.taskId) then addStored cps all else addStored cps (all ++ [cp])

/-- One round of `process_commands`. -/
def handle (batchSize : Nat) (c : ManagerChoice) (s : ManagerState) :
    ManagerInput → ManagerAnswer × ManagerState
  | .command (.save taskId position) =>
    let s' := { s with pending := s.pending.save (newCheckpoint c taskId position) }
    (.none, if batchSize ≤ s'.pending.size then flushPending c.save s' else s')
  | .command (.load taskId) =>
    match s.pending.lookup taskId with
    | some cp => (.loaded (some cp), s)
    | none =>
      match c.load with
      | .succeeds => (.loaded (s.storage.lookup taskId), s)
      | .fails _ _ => (.loaded none, s)
  | .command (.delete taskId) =>
    -- an error of the storage is only logged
    let (_, storage) := c.delete.call s.storage (s.storage.delete taskId)
    (.none, { pending := s.pending.delete taskId, storage })
  | .command .list =>
    match c.list with
    | .succeeds => (.listed (addStored s.storage.list s.pending.list), s)
    | .fails _ _ => (.listed s.pending.list, s)
  | .command .flush | .tick => (.none, flushPending c.save s)

/-! ## What a flush does to one task -/

/-- The save of the task fails. -/
def Fails (reply : String → Reply) (taskId : String) : Prop :=
  ∃ e applied, reply taskId = .fails e applied

theorem mem_failed (reply : String → Reply) (cps : List Checkpoint) (storage : CheckpointMap)
    (taskId : String) :
    taskId ∈ (saveEach reply cps storage).2 ↔
      Fails reply taskId ∧ ∃ cp ∈ cps, cp.taskId = taskId := by
  induction cps generalizing storage with
  | nil => simp [saveEach]
  | cons cp cps ih =>
    cases hreply : reply cp.taskId with
    | succeeds =>
      have hnot : ¬ Fails reply cp.taskId := by
        rintro ⟨e, applied, h⟩
        simp [hreply] at h
      simp only [saveEach, hreply, Reply.call, ih, List.mem_cons]
      constructor
      · rintro ⟨hfails, cp', hcp', htask⟩
        exact ⟨hfails, cp', .inr hcp', htask⟩
      · rintro ⟨hfails, cp', rfl | hcp', htask⟩
        · exact absurd (htask ▸ hfails) hnot
        · exact ⟨hfails, cp', hcp', htask⟩
    | fails e applied =>
      simp only [saveEach, hreply, Reply.call, ih, List.mem_cons]
      constructor
      · rintro (rfl | ⟨hfails, cp', hcp', htask⟩)
        · exact ⟨⟨e, applied, hreply⟩, cp, .inl rfl, rfl⟩
        · exact ⟨hfails, cp', .inr hcp', htask⟩
      · rintro ⟨hfails, cp', rfl | hcp', htask⟩
        · exact .inl htask.symm
        · exact .inr ⟨hfails, cp', hcp', htask⟩

theorem saveEach_cons (reply : String → Reply) (cp : Checkpoint) (cps : List Checkpoint)
    (storage : CheckpointMap) :
    (saveEach reply (cp :: cps) storage).1 =
      (saveEach reply cps
        (if (reply cp.taskId).takesEffect then storage.save cp else storage)).1 := by
  rw [saveEach]
  cases reply cp.taskId with
  | succeeds => rfl
  | fails e applied => cases applied <;> rfl

/-- A task without a checkpoint in the list keeps what is stored. -/
theorem lookup_saveEach_of_not_mem (reply : String → Reply) {cps : List Checkpoint}
    {taskId : String} (h : ∀ cp ∈ cps, cp.taskId ≠ taskId) (storage : CheckpointMap) :
    (saveEach reply cps storage).1.lookup taskId = storage.lookup taskId := by
  induction cps generalizing storage with
  | nil => rfl
  | cons cp cps ih =>
    rw [saveEach_cons, ih fun cp' hcp' => h cp' (List.mem_cons_of_mem _ hcp')]
    split
    · rw [CheckpointMap.lookup_save, if_neg (Ne.symm (h cp List.mem_cons_self))]
    · rfl

/-- A task with one checkpoint in the list has it stored, if its save takes effect. -/
theorem lookup_saveEach_of_mem (reply : String → Reply) {cps : List Checkpoint} {cp : Checkpoint}
    (hmem : cp ∈ cps) (hone : ∀ cp' ∈ cps, cp'.taskId = cp.taskId → cp' = cp)
    (storage : CheckpointMap) :
    (saveEach reply cps storage).1.lookup cp.taskId =
      if (reply cp.taskId).takesEffect then some cp else storage.lookup cp.taskId := by
  induction cps generalizing storage with
  | nil => cases hmem
  | cons head cps ih =>
    rw [saveEach_cons]
    have hone' : ∀ cp' ∈ cps, cp'.taskId = cp.taskId → cp' = cp :=
      fun cp' hcp' => hone cp' (List.mem_cons_of_mem _ hcp')
    by_cases hrest : cp ∈ cps
    · rw [ih hrest hone']
      by_cases htask : head.taskId = cp.taskId
      · obtain rfl := hone head List.mem_cons_self htask
        split <;> simp
      · have hother : (if (reply head.taskId).takesEffect then storage.save head
            else storage).lookup cp.taskId = storage.lookup cp.taskId := by
          split <;> simp [Ne.symm htask]
        rw [hother]
    · obtain rfl : cp = head := (List.mem_cons.mp hmem).resolve_right hrest
      have hothers : ∀ cp' ∈ cps, cp'.taskId ≠ cp.taskId :=
        fun cp' hcp' htask => hrest (hone' cp' hcp' htask ▸ hcp')
      rw [lookup_saveEach_of_not_mem reply hothers]
      split <;> simp

/-- After a flush the buffer holds what could not be saved. -/
theorem flushPending_pending (reply : String → Reply) (s : ManagerState) (taskId : String)
    (cp : Checkpoint) :
    (flushPending reply s).pending.lookup taskId = some cp ↔
      s.pending.lookup taskId = some cp ∧ Fails reply taskId := by
  unfold flushPending
  have hmem (cp' : Checkpoint) (h : s.pending.lookup taskId = some cp') :
      cp' ∈ s.pending.list ∧ cp'.taskId = taskId := by
    obtain rfl := s.pending.keyed _ _ h
    exact ⟨s.pending.mem_list.mpr h, rfl⟩
  split
  · next hnil =>
    have hnone : s.pending.lookup taskId = none :=
      Option.eq_none_iff_forall_ne_some.mpr fun cp' h => by simpa [hnil] using hmem cp' h
    simp [hnone]
  · simp only [CheckpointMap.lookup_retain, List.contains_iff_mem, mem_failed,
      Option.ite_none_right_eq_some]
    constructor
    · exact fun h => ⟨h.2, h.1.1⟩
    · exact fun h => ⟨⟨h.2, cp, hmem cp h.1⟩, h.1⟩

/-- After a flush the storage holds what the buffer held, where the saves have taken effect. -/
theorem flushPending_storage (reply : String → Reply) (s : ManagerState) (taskId : String) :
    (flushPending reply s).storage.lookup taskId =
      match s.pending.lookup taskId with
      | some cp => if (reply taskId).takesEffect then some cp else s.storage.lookup taskId
      | none => s.storage.lookup taskId := by
  have hlist (cp : Checkpoint) (hcp : cp ∈ s.pending.list) (htask : cp.taskId = taskId) :
      s.pending.lookup taskId = some cp := htask ▸ s.pending.mem_list.mp hcp
  unfold flushPending
  split
  · next hnil =>
    cases hpending : s.pending.lookup taskId with
    | none => rfl
    | some cp =>
      obtain rfl := s.pending.keyed _ _ hpending
      simpa [hnil] using s.pending.mem_list.mpr hpending
  · cases hpending : s.pending.lookup taskId with
    | none =>
      refine lookup_saveEach_of_not_mem reply (fun cp hcp htask => ?_) s.storage
      simp [hlist cp hcp htask] at hpending
    | some cp =>
      obtain rfl := s.pending.keyed _ _ hpending
      refine lookup_saveEach_of_mem reply (s.pending.mem_list.mpr hpending)
        (fun cp' hcp' htask => ?_) s.storage
      exact s.pending.eq_of_mem_list hcp' (s.pending.mem_list.mpr hpending) htask

/-- A flush moves checkpoints, and a `Load` finds what it would have found before. -/
theorem view_flushPending (reply : String → Reply) (s : ManagerState) (taskId : String) :
    (flushPending reply s).view taskId = s.view taskId := by
  rw [ManagerState.view, ManagerState.view, flushPending_storage]
  cases hpending : s.pending.lookup taskId with
  | none =>
    have hnone : (flushPending reply s).pending.lookup taskId = none :=
      Option.eq_none_iff_forall_ne_some.mpr fun cp hcp => by
        have hheld := ((flushPending_pending _ _ _ _).mp hcp).1
        simp [hpending] at hheld
    simp [hnone]
  | some cp =>
    cases hreply : reply taskId with
    | succeeds =>
      -- the checkpoint has left the buffer for the storage
      have hnone : (flushPending reply s).pending.lookup taskId = none := by
        refine Option.eq_none_iff_forall_ne_some.mpr fun cp hcp => ?_
        obtain ⟨-, e, applied, hfails⟩ := (flushPending_pending _ _ _ _).mp hcp
        simp [hreply] at hfails
      simp [hnone, Reply.takesEffect]
    | fails e applied =>
      have hkept := (flushPending_pending reply s taskId cp).mpr ⟨hpending, e, applied, hreply⟩
      simp [hkept]

/-! ## What a round does to one task -/

/-- A command that writes about the task. -/
def About (taskId : String) : CheckpointCommand → Bool
  | .save other _ | .delete other => decide (other = taskId)
  | .load _ | .list | .flush => false

variable {batchSize : Nat} {c : ManagerChoice} {s : ManagerState} {taskId : String}
  {cp : Checkpoint}

theorem view_save (s : ManagerState) (cp : Checkpoint) (taskId : String) :
    ({ s with pending := s.pending.save cp } : ManagerState).view taskId =
      if taskId = cp.taskId then some cp else s.view taskId := by
  rw [ManagerState.view, ManagerState.view, CheckpointMap.lookup_save]
  split <;> rfl

theorem view_handle_save (position : Position) :
    (handle batchSize c s (.command (.save taskId position))).2.view taskId =
      some (newCheckpoint c taskId position) := by
  simp only [handle]
  split
  · rw [view_flushPending, view_save]
    exact if_pos rfl
  · rw [view_save]
    exact if_pos rfl

/-- What is not about the task leaves alone what a `Load` of it finds. -/
theorem view_handle_other {cmd : CheckpointCommand} (h : About taskId cmd = false) :
    (handle batchSize c s (.command cmd)).2.view taskId = s.view taskId := by
  cases cmd with
  | flush => exact view_flushPending c.save s taskId
  | list =>
    simp only [handle]
    split <;> rfl
  | load other =>
    simp only [handle]
    split
    · rfl
    · split <;> rfl
  | save other position =>
    have hother : ¬ taskId = other := fun heq => by simp [About, heq] at h
    simp only [handle]
    split
    · rw [view_flushPending, view_save]
      exact if_neg hother
    · rw [view_save]
      exact if_neg hother
  | delete other =>
    have hother : ¬ taskId = other := fun heq => by simp [About, heq] at h
    simp only [handle, ManagerState.view, Reply.call_snd, CheckpointMap.lookup_delete, hother,
      if_false]
    split
    · rw [CheckpointMap.lookup_delete, if_neg hother]
    · rfl

/-! ## Where the checkpoints of a round come from -/

theorem storage_of_flush {reply : String → Reply}
    (h : (flushPending reply s).storage.lookup taskId = some cp) :
    s.storage.lookup taskId = some cp ∨ s.pending.lookup taskId = some cp := by
  rw [flushPending_storage] at h
  cases hpending : s.pending.lookup taskId with
  | none =>
    simp only [hpending] at h
    exact .inl h
  | some cp' =>
    simp only [hpending] at h
    split at h
    · exact .inr h
    · exact .inl h

/-- A checkpoint in the buffer was there before, or has just been saved. -/
theorem pending_of_handle {input : ManagerInput}
    (h : (handle batchSize c s input).2.pending.lookup taskId = some cp) :
    s.pending.lookup taskId = some cp ∨ input = .command (.save taskId cp.position) := by
  cases input with
  | tick => exact .inl ((flushPending_pending _ _ _ _).mp h).1
  | command cmd =>
    cases cmd with
    | flush => exact .inl ((flushPending_pending _ _ _ _).mp h).1
    | list =>
      simp only [handle] at h
      split at h <;> exact .inl h
    | load other =>
      simp only [handle] at h
      split at h
      · exact .inl h
      · split at h <;> exact .inl h
    | delete other =>
      simp only [handle, CheckpointMap.lookup_delete, Option.ite_none_left_eq_some] at h
      exact .inl h.2
    | save other position =>
      have hsaved : (s.pending.save (newCheckpoint c other position)).lookup taskId = some cp := by
        simp only [handle] at h
        split at h
        · exact ((flushPending_pending _ _ _ _).mp h).1
        · exact h
      rw [CheckpointMap.lookup_save] at hsaved
      split at hsaved
      · next htask =>
        obtain rfl := Option.some.inj hsaved
        exact .inr (by rw [htask]; rfl)
      · exact .inl hsaved

/-- A stored checkpoint was stored before or in the buffer, or has just been saved. -/
theorem storage_of_handle {input : ManagerInput}
    (h : (handle batchSize c s input).2.storage.lookup taskId = some cp) :
    s.storage.lookup taskId = some cp ∨ s.pending.lookup taskId = some cp ∨
      input = .command (.save taskId cp.position) := by
  cases input with
  | tick => exact (storage_of_flush h).imp_right .inl
  | command cmd =>
    cases cmd with
    | flush => exact (storage_of_flush h).imp_right .inl
    | list =>
      simp only [handle] at h
      split at h <;> exact .inl h
    | load other =>
      simp only [handle] at h
      split at h
      · exact .inl h
      · split at h <;> exact .inl h
    | delete other =>
      simp only [handle, Reply.call_snd] at h
      split at h
      · simp only [CheckpointMap.lookup_delete, Option.ite_none_left_eq_some] at h
        exact .inl h.2
      · exact .inl h
    | save other position =>
      simp only [handle] at h
      split at h
      -- the save filled the buffer, so what was pending goes to the storage with it
      · rcases storage_of_flush h with hstored | hsaved
        · exact .inl hstored
        · rw [CheckpointMap.lookup_save] at hsaved
          split at hsaved
          · next htask =>
            obtain rfl := Option.some.inj hsaved
            exact .inr (.inr (by rw [htask]; rfl))
          · exact .inr (.inl hsaved)
      · exact .inl h

end CheckpointManager

end MeiliBridge
