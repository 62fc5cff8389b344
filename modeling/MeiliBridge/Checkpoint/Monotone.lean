import MeiliBridge.Checkpoint.Flow

/-!
# Whether the stored checkpoint moves backwards

A `Save` that waits in the persistence task, in the manager's channel or in its buffer holds the
position the map had when it was read. A flush writes it over whatever record `prepare` has stored
since. `checkpoint_monotone` proves that a task's record never moves backwards in the runs in which
this cannot happen: the map is read between the task's batches, while it has the position of the
stored record, and a batch is prepared when no `Save` of the task waits.
-/

set_option autoImplicit false

namespace MeiliBridge

open Trans

namespace CheckpointFlow

/-- A `Save` of this position waits for a flush. -/
def State.Waits (s : State) (taskId : String) (position : Position) : Prop :=
  (∃ rest final, s.persistence = .saving rest final ∧ (taskId, position) ∈ rest) ∨
  .save taskId position ∈ s.commands ∨
  ∃ cp, s.manager.pending.lookup taskId = some cp ∧ cp.position = position

/-- No stored position of the task is replaced by an earlier one. -/
def NotBackwards (taskId : String) (s s' : State) : Prop :=
  ∀ cp cp', s.stored taskId = some cp → s'.stored taskId = some cp' →
    cp.position.isAfter cp'.position = false

/-- The task's positions come from its batches; the map is read when none of them is under way and
the map has the position of the stored record; and a batch is prepared when no `Save` waits. -/
def InStep (taskId : String) (s : State) : Label → Prop
  | .move other _ => other ≠ taskId
  | .prepare other _ _ _ _ => other = taskId → ∀ position, ¬ s.Waits taskId position
  | .read _ _ => s.phase taskId = .idle ∧
    ∀ position cp, s.checkpoints.lookup taskId = some position → s.stored taskId = some cp →
      cp.position = position
  | _ => True

/-- The position of the batch that is under way. -/
def BatchPhase.position : BatchPhase → Option Position
  | .idle => none
  | .begun p | .prepared p | .committing p _ | .committed p => some p

structure Inv (taskId : String) (s : State) : Prop where
  fromMap : ∀ position, s.Waits taskId position → s.checkpoints.lookup taskId = some position
  agree : ∀ position, s.Waits taskId position →
    ∀ cp, s.stored taskId = some cp → cp.position = position
  apart : ∀ position, s.Waits taskId position →
    s.phase taskId = .idle ∨ ∃ p, s.phase taskId = .begun p
  loaded : ∀ p cp, s.phase taskId = .committing p cp → cp.taskId = taskId ∧
    cp.position ∈ s.stream taskId ∧ ∀ cp', s.stored taskId = some cp' → cp'.position = cp.position
  storedSeen : ∀ cp, s.stored taskId = some cp → cp.position ∈ s.stream taskId
  mapSeen : ∀ position, s.checkpoints.lookup taskId = some position → position ∈ s.stream taskId
  batchSeen : ∀ p, (s.phase taskId).position = some p → p ∈ s.stream taskId
  begunLast : ∀ p, s.phase taskId = .begun p →
    ∀ earlier ∈ s.stream taskId, earlier.isAfter p = false

/-- A step after which nothing new waits, and in which the record changes at most to a position
that was waiting. -/
structure Quiet (taskId : String) (s s' : State) : Prop where
  waits : ∀ position, s'.Waits taskId position → s.Waits taskId position
  stored : ∀ cp, s'.stored taskId = some cp →
    s.stored taskId = some cp ∨ s.Waits taskId cp.position
  checkpoints : s'.checkpoints.lookup taskId = s.checkpoints.lookup taskId
  phase : s'.phase taskId = s.phase taskId ∨ s'.phase taskId = .idle
  stream : s'.stream taskId = s.stream taskId

variable {taskId : String} {s s' : State} {l : Label} {batchSize : Nat}

theorem Quiet.notBackwards (h : Quiet taskId s s') (hinv : Inv taskId s) :
    NotBackwards taskId s s' := by
  intro cp cp' hcp hcp'
  rcases h.stored cp' hcp' with hsame | hwaits
  · obtain rfl := Option.some.inj (hcp.symm.trans hsame)
    exact Position.isAfter_self _
  · rw [hinv.agree _ hwaits cp hcp]
    exact Position.isAfter_self _

theorem Quiet.inv (h : Quiet taskId s s') (hinv : Inv taskId s) : Inv taskId s' where
  fromMap position hwaits := h.checkpoints ▸ hinv.fromMap position (h.waits position hwaits)
  agree position hwaits cp hcp := by
    have hwaited := h.waits position hwaits
    rcases h.stored cp hcp with hsame | hother
    · exact hinv.agree position hwaited cp hsame
    · -- both are the position of the map
      exact Option.some.inj ((hinv.fromMap _ hother).symm.trans (hinv.fromMap _ hwaited))
  apart position hwaits := by
    rcases h.phase with hphase | hidle
    · exact hphase ▸ hinv.apart position (h.waits position hwaits)
    · exact .inl hidle
  loaded p cp hcommitting := by
    rcases h.phase with hphase | hidle
    · obtain ⟨htask, hseen, hstored⟩ := hinv.loaded p cp (hphase ▸ hcommitting)
      refine ⟨htask, h.stream ▸ hseen, fun cp' hcp' => ?_⟩
      rcases h.stored cp' hcp' with hsame | hwaits
      · exact hstored cp' hsame
      · rcases hinv.apart _ hwaits with hbusy | ⟨q, hbusy⟩ <;>
          simp [hphase ▸ hcommitting] at hbusy
    · simp [hidle] at hcommitting
  storedSeen cp hcp := by
    rw [h.stream]
    rcases h.stored cp hcp with hsame | hwaits
    · exact hinv.storedSeen cp hsame
    · exact hinv.mapSeen _ (hinv.fromMap _ hwaits)
  mapSeen position hmap := h.stream ▸ hinv.mapSeen position (h.checkpoints ▸ hmap)
  batchSeen p hp := by
    rcases h.phase with hphase | hidle
    · exact h.stream ▸ hinv.batchSeen p (hphase ▸ hp)
    · simp [hidle, BatchPhase.position] at hp
  begunLast p hp := by
    rcases h.phase with hphase | hidle
    · exact h.stream ▸ hinv.begunLast p (hphase ▸ hp)
    · simp [hidle] at hp

/-! ## What the steps do to the record of a task -/

theorem stored_save (s : State) (reply : Reply) (cp : Checkpoint) (taskId : String) :
    (s.save reply cp).stored taskId =
      if reply.takesEffect ∧ taskId = cp.taskId then some cp else s.stored taskId := by
  simp only [State.save, State.setStorage, State.stored, Reply.call_snd]
  cases reply.takesEffect <;> simp

theorem stored_delete (s : State) (reply : Reply) (other taskId : String) :
    (s.delete reply other).stored taskId =
      if reply.takesEffect ∧ taskId = other then none else s.stored taskId := by
  simp only [State.delete, State.setStorage, State.stored, Reply.call_snd]
  cases reply.takesEffect <;> simp

theorem stored_of_delete {reply : Reply} {other : String} {cp : Checkpoint}
    (h : (s.delete reply other).stored taskId = some cp) : s.stored taskId = some cp := by
  rw [stored_delete] at h
  split at h
  · cases h
  · exact h

/-- Nothing about the task but perhaps its record's disappearance. -/
theorem Quiet.shrink (hwaits : ∀ position, s'.Waits taskId position → s.Waits taskId position)
    (hstored : ∀ cp, s'.stored taskId = some cp → s.stored taskId = some cp)
    (hmap : s'.checkpoints.lookup taskId = s.checkpoints.lookup taskId)
    (hphase : s'.phase taskId = s.phase taskId ∨ s'.phase taskId = .idle)
    (hstream : s'.stream taskId = s.stream taskId) : Quiet taskId s s' :=
  ⟨hwaits, fun cp hcp => .inl (hstored cp hcp), hmap, hphase, hstream⟩

/-- A step of another task's batch. -/
theorem phase_update {other : String} {phase : BatchPhase} (h : other ≠ taskId) :
    (s.setPhase other phase).phase taskId = s.phase taskId :=
  Function.update_of_ne (Ne.symm h) ..

/-- The batch of a task becomes idle. -/
theorem phase_idle (other : String) :
    (s.setPhase other .idle).phase taskId = s.phase taskId ∨
      (s.setPhase other .idle).phase taskId = .idle := by
  by_cases h : other = taskId
  · subst h
    exact .inr (Function.update_self ..)
  · exact .inl (phase_update h)

/-- One round of the manager. -/
theorem quiet_handle {choice : ManagerChoice} {input : ManagerInput}
    {commands : List CheckpointCommand} (hrest : ∀ cmd ∈ commands, cmd ∈ s.commands)
    (hinput : ∀ position, input = .command (.save taskId position) →
      .save taskId position ∈ s.commands) :
    Quiet taskId s { s with
      commands
      manager := (CheckpointManager.handle batchSize choice s.manager input).2 } where
  waits position h := by
    rcases h with hsaving | hcommand | ⟨cp, hpending, hposition⟩
    · exact .inl hsaving
    · exact .inr (.inl (hrest _ hcommand))
    · rcases CheckpointManager.pending_of_handle hpending with hold | hnew
      · exact .inr (.inr ⟨cp, hold, hposition⟩)
      · exact .inr (.inl (hposition ▸ hinput _ hnew))
  stored cp h := by
    rcases CheckpointManager.storage_of_handle h with hstored | hpending | hnew
    · exact .inl hstored
    · exact .inr (.inr (.inr ⟨cp, hpending, rfl⟩))
    · exact .inr (.inr (.inl (hinput _ hnew)))
  checkpoints := rfl
  phase := .inl rfl
  stream := rfl

/-- The steps that matter to the order of a task's record. -/
inductive Moves (taskId : String) (s : State) : State → Prop
  | begun (position : Position)
      (hstream : ∀ earlier ∈ s.stream taskId, earlier.isAfter position = false) :
      Moves taskId s { s.setPhase taskId (.begun position) with
        stream := Function.update s.stream taskId (s.stream taskId ++ [position]) }
  | prepared (cp : Checkpoint) (position : Position) (reply : Reply)
      (hphase : s.phase taskId = .begun position) (hnone : ∀ q, ¬ s.Waits taskId q)
      (hposition : cp.position = position) :
      Moves taskId s ((s.save reply cp).setPhase taskId (onSuccess reply (.prepared position)))
  | loaded (cp : Checkpoint) (position : Position) (hphase : s.phase taskId = .prepared position)
      (hloaded : s.stored taskId = some cp) :
      Moves taskId s (s.setPhase taskId (.committing position cp))
  | saved (loaded cp : Checkpoint) (position : Position) (reply : Reply)
      (hphase : s.phase taskId = .committing position loaded)
      (hposition : cp.position = loaded.position) :
      Moves taskId s ((s.save reply cp).setPhase taskId (onSuccess reply (.committed position)))
  | settled (position : Position) (hphase : s.phase taskId = .committed position) :
      Moves taskId s { s.setPhase taskId .idle with
        checkpoints := s.checkpoints.insert taskId position }
  | read (order : List (String × Position)) (final : Bool) (hidle : s.phase taskId = .idle)
      (hagree : ∀ position cp, s.checkpoints.lookup taskId = some position →
        s.stored taskId = some cp → cp.position = position)
      (horder : ∀ position, (taskId, position) ∈ order →
        s.checkpoints.lookup taskId = some position) :
      Moves taskId s { s with persistence := .saving order final }

/-- A commit has loaded the record of its own task. -/
def LoadedOwn (s : State) : Prop :=
  ∀ other p cp, s.phase other = .committing p cp → cp.taskId = other

theorem LoadedOwn.setPhase (h : LoadedOwn s) {other : String} {phase : BatchPhase}
    (hphase : ∀ p cp, phase = .committing p cp → cp.taskId = other) :
    LoadedOwn (s.setPhase other phase) := by
  intro taskId p cp hcommitting
  by_cases heq : taskId = other
  · subst heq
    exact hphase p cp ((Function.update_self ..).symm.trans hcommitting)
  · exact h taskId p cp ((phase_update (Ne.symm heq)).symm.trans hcommitting)

theorem onSuccess_committing {reply : Reply} {phase : BatchPhase} {p : Position} {cp : Checkpoint}
    (h : onSuccess reply phase = .committing p cp) : phase = .committing p cp := by
  cases reply with
  | succeeds => exact h
  | fails e applied => cases h

theorem LoadedOwn.step (h : LoadedOwn s) (hs : Step batchSize s l s') : LoadedOwn s' := by
  cases hs with
  | move | read | sendSave | endSaving | send | receive | flushTick | signal | tasksFinish
  | stopReturns => exact h
  | begin | commitLoadFails | settle | commitFails | rollback => exact h.setPhase nofun
  | prepare | commitSave =>
    exact LoadedOwn.setPhase h fun p cp hc => nomatch onSuccess_committing hc
  | commitLoad hphase hloaded =>
    refine h.setPhase fun p cp hc => ?_
    cases hc
    exact s.manager.storage.keyed _ _ hloaded
  | expire hphase hnext =>
    refine LoadedOwn.setPhase h fun p cp hc => ?_
    rcases hnext with rfl | ⟨rfl, -⟩
    · exact absurd hc (hphase p cp)
    · cases hc

/-- **What a step does to a task.** -/
theorem step_cases (hown : LoadedOwn s) (hok : InStep taskId s l) (hs : Step batchSize s l s') :
    Quiet taskId s s' ∨ Moves taskId s s' := by
  cases hs with
  | signal | tasksFinish | stopReturns =>
    exact .inl (.shrink (fun _ h => h) (fun _ h => h) rfl (.inl rfl) rfl)
  | move =>
    exact .inl (.shrink (fun _ h => h) (fun _ h => h)
      (AList.lookup_insert_ne (Ne.symm hok)) (.inl rfl) rfl)
  | commitLoadFails | commitFails =>
    exact .inl (.shrink (fun _ h => h) (fun _ h => h) rfl (phase_idle _) rfl)
  | rollback =>
    exact .inl (.shrink (fun _ h => h) (fun _ h => stored_of_delete h) rfl (phase_idle _) rfl)
  | @expire other reply phase hphase hnext =>
    refine .inl (.shrink (fun _ h => h) (fun _ h => stored_of_delete h) rfl ?_ rfl)
    rcases hnext with rfl | ⟨rfl, -⟩
    · by_cases h : other = taskId
      · subst h
        exact .inl (Function.update_self ..)
      · exact .inl (phase_update h)
    · exact phase_idle other
  | @begin other position hrun hphase hstream =>
    by_cases h : other = taskId
    · subst h
      exact .inr (.begun position hstream)
    · exact .inl (.shrink (fun _ h => h) (fun _ h => h) rfl (.inl (phase_update h))
        (Function.update_of_ne (Ne.symm h) ..))
  | @prepare other transactionId uuid now reply position hphase =>
    by_cases h : other = taskId
    · subst h
      exact .inr (.prepared _ position reply hphase (hok rfl) rfl)
    · refine .inl (.shrink (fun _ h => h) (fun cp hcp => ?_) rfl (.inl (phase_update h)) rfl)
      have hcp' := (stored_save s reply _ taskId).symm.trans hcp
      rwa [if_neg fun hsame => h hsame.2.symm] at hcp'
  | @commitLoad other position cp hphase hloaded =>
    by_cases h : other = taskId
    · subst h
      exact .inr (.loaded cp position hphase hloaded)
    · exact .inl (.shrink (fun _ h => h) (fun _ h => h) rfl (.inl (phase_update h)) rfl)
  | @commitSave other transactionId now reply position cp hphase =>
    by_cases h : other = taskId
    · subst h
      exact .inr (.saved cp _ position reply hphase rfl)
    · refine .inl (.shrink (fun _ h => h) (fun cp' hcp' => ?_) rfl (.inl (phase_update h)) rfl)
      have hcp := (stored_save s reply _ taskId).symm.trans hcp'
      have hkey : (committedRecord cp transactionId now).taskId = other :=
        hown other position cp hphase
      rwa [if_neg fun hsame => h (hsame.2.trans hkey).symm] at hcp
  | @settle other position hphase hfree =>
    by_cases h : other = taskId
    · subst h
      exact .inr (.settled position hphase)
    · exact .inl (.shrink (fun _ h => h) (fun _ h => h) (AList.lookup_insert_ne (Ne.symm h))
        (.inl (phase_update h)) rfl)
  -- a position that is read is the map's, as the order lists the map's entries
  | @read order final hphase hfinal horder =>
    refine .inr (.read order final hok.1 hok.2 fun position hmem => ?_)
    obtain ⟨⟨other, q⟩, hentry, heq⟩ := List.mem_map.mp (horder.mem_iff.mp hmem)
    obtain ⟨rfl, rfl⟩ := Prod.mk.injEq .. ▸ heq
    exact List.mem_dlookup s.checkpoints.nodupKeys hentry
  -- a `Save` goes from the persistence task to the channel, and none is added
  | @sendSave other position rest final hphase hroom =>
    refine .inl (.shrink (fun q h => ?_) (fun _ h => h) rfl (.inl rfl) rfl)
    rcases h with ⟨rest', final', hsaving, hmem⟩ | hcommand | hpending
    · cases hsaving
      exact .inl ⟨_, _, hphase, List.mem_cons_of_mem _ hmem⟩
    · rcases List.mem_append.mp hcommand with hold | hnew
      · exact .inr (.inl hold)
      · obtain ⟨rfl, rfl⟩ : taskId = other ∧ q = position := by simpa using hnew
        exact .inl ⟨_, _, hphase, List.mem_cons_self⟩
    · exact .inr (.inr hpending)
  | @endSaving final hphase =>
    refine .inl (.shrink (fun q h => ?_) (fun _ h => h) rfl (.inl rfl) rfl)
    rcases h with ⟨rest', final', hsaving, hmem⟩ | hrest
    · cases final <;> cases hsaving
    · exact .inr hrest
  | @send cmd hcmd hroom =>
    refine .inl (.shrink (fun q h => ?_) (fun _ h => h) rfl (.inl rfl) rfl)
    rcases h with hsaving | hcommand | hpending
    · exact .inl hsaving
    · rcases List.mem_append.mp hcommand with hold | hnew
      · exact .inr (.inl hold)
      · exact absurd (List.mem_singleton.mp hnew).symm (hcmd taskId q)
    · exact .inr (.inr hpending)
  | @receive choice cmd rest hcommands =>
    refine .inl (quiet_handle (fun cmd' hmem => ?_) fun q hinput => ?_)
    · exact hcommands ▸ List.mem_cons_of_mem _ hmem
    · rw [hcommands]
      cases hinput
      exact List.mem_cons_self
  | @flushTick choice =>
    have hkept : ∀ cmd ∈ s.commands, cmd ∈ s.commands := fun _ h => h
    exact .inl (quiet_handle hkept fun q hinput => nomatch hinput)

/-! ## The invariant -/

/-- A batch that is past `begun` keeps the task's `Save`s from waiting. -/
theorem Inv.not_waits (h : Inv taskId s) (hidle : s.phase taskId ≠ .idle)
    (hbegun : ∀ p, s.phase taskId ≠ .begun p) (position : Position) : ¬ s.Waits taskId position :=
  fun hwaits => (h.apart position hwaits).elim hidle fun ⟨p, hp⟩ => hbegun p hp

theorem Inv.moves_begun (h : Inv taskId s) {position : Position}
    (hstream : ∀ earlier ∈ s.stream taskId, earlier.isAfter position = false) :
    Inv taskId { s.setPhase taskId (.begun position) with
      stream := Function.update s.stream taskId (s.stream taskId ++ [position]) } := by
  have hphase : (s.setPhase taskId (.begun position)).phase taskId = .begun position :=
    Function.update_self ..
  have hnew : Function.update s.stream taskId (s.stream taskId ++ [position]) taskId =
      s.stream taskId ++ [position] := Function.update_self ..
  have hseen : ∀ p ∈ s.stream taskId,
      p ∈ Function.update s.stream taskId (s.stream taskId ++ [position]) taskId :=
    fun p hp => by rw [hnew]; exact List.mem_append_left _ hp
  refine ⟨h.fromMap, h.agree, fun p _ => .inr ⟨position, hphase⟩, fun p cp hc => ?_,
    fun cp hcp => hseen _ (h.storedSeen cp hcp), fun p hp => hseen p (h.mapSeen p hp),
    fun p hp => ?_, fun p hp earlier hearlier => ?_⟩
  · cases hphase.symm.trans hc
  · rw [hphase] at hp
    obtain rfl := Option.some.inj hp
    show position ∈ Function.update s.stream taskId (s.stream taskId ++ [position]) taskId
    rw [hnew]
    exact List.mem_append_right _ List.mem_cons_self
  · obtain rfl : position = p := by simpa using hphase.symm.trans hp
    replace hearlier : earlier ∈
        Function.update s.stream taskId (s.stream taskId ++ [position]) taskId :=
      hearlier
    rw [hnew] at hearlier
    rcases List.mem_append.mp hearlier with hold | hlast
    · exact hstream earlier hold
    · rw [List.mem_singleton.mp hlast]
      exact Position.isAfter_self _

/-- A batch saves its record at a position of the stream, while nothing waits. -/
theorem Inv.saves (h : Inv taskId s) {cp : Checkpoint} {position : Position} {reply : Reply}
    {next : BatchPhase} (hnone : ∀ q, ¬ s.Waits taskId q) (hseen : cp.position ∈ s.stream taskId)
    (hbatch : position ∈ s.stream taskId)
    (hnext : next = .prepared position ∨ next = .committed position) :
    Inv taskId ((s.save reply cp).setPhase taskId (onSuccess reply next)) := by
  have hphase : ((s.save reply cp).setPhase taskId (onSuccess reply next)).phase taskId =
      onSuccess reply next := Function.update_self ..
  refine ⟨fun q hq => absurd hq (hnone q), fun q hq => absurd hq (hnone q),
    fun q hq => absurd hq (hnone q), fun p cp' hc => ?_, fun cp' hcp' => ?_, h.mapSeen,
    fun p hp => ?_, fun p hp => ?_⟩
  · have hcommitting := onSuccess_committing (hphase.symm.trans hc)
    rcases hnext with rfl | rfl <;> cases hcommitting
  · have hcp := (stored_save s reply cp taskId).symm.trans hcp'
    split at hcp
    · obtain rfl := Option.some.inj hcp
      exact hseen
    · exact h.storedSeen cp' hcp
  · rw [hphase] at hp
    cases reply with
    | succeeds =>
      rcases hnext with rfl | rfl <;> obtain rfl := Option.some.inj hp <;> exact hbatch
    | fails e applied => cases hp
  · rw [hphase] at hp
    cases reply with
    | succeeds => rcases hnext with rfl | rfl <;> cases hp
    | fails e applied => cases hp

theorem Inv.moves_prepared (h : Inv taskId s) {cp : Checkpoint} {position : Position}
    {reply : Reply} (hphase : s.phase taskId = .begun position)
    (hnone : ∀ q, ¬ s.Waits taskId q)
    (hposition : cp.position = position) :
    Inv taskId ((s.save reply cp).setPhase taskId (onSuccess reply (.prepared position))) := by
  have hseen : position ∈ s.stream taskId := h.batchSeen position (by rw [hphase]; rfl)
  exact h.saves hnone (hposition ▸ hseen) hseen (.inl rfl)

theorem Inv.moves_loaded (h : Inv taskId s) {cp : Checkpoint} {position : Position}
    (hphase : s.phase taskId = .prepared position) (hloaded : s.stored taskId = some cp) :
    Inv taskId (s.setPhase taskId (.committing position cp)) := by
  have hnext : (s.setPhase taskId (.committing position cp)).phase taskId =
      .committing position cp := Function.update_self ..
  have hnone (q : Position) : ¬ s.Waits taskId q :=
    h.not_waits (by simp [hphase]) (by simp [hphase]) q
  refine ⟨h.fromMap, h.agree, fun q hq => absurd hq (hnone q), fun p cp' hc => ?_, h.storedSeen,
    h.mapSeen, fun p hp => ?_, fun p hp => ?_⟩
  · obtain ⟨-, rfl⟩ : position = p ∧ cp = cp' := by simpa using hnext.symm.trans hc
    refine ⟨s.manager.storage.keyed _ _ hloaded, h.storedSeen cp hloaded, fun cp' hcp' => ?_⟩
    rw [Option.some.inj (hcp'.symm.trans hloaded)]
  · rw [hnext] at hp
    obtain rfl := Option.some.inj hp
    exact h.batchSeen position (by rw [hphase]; rfl)
  · cases hnext.symm.trans hp

theorem Inv.moves_saved (h : Inv taskId s) {loaded cp : Checkpoint} {position : Position}
    {reply : Reply} (hphase : s.phase taskId = .committing position loaded)
    (hposition : cp.position = loaded.position) :
    Inv taskId ((s.save reply cp).setPhase taskId (onSuccess reply (.committed position))) := by
  have hnone (q : Position) : ¬ s.Waits taskId q :=
    h.not_waits (by simp [hphase]) (by simp [hphase]) q
  obtain ⟨-, hseen, -⟩ := h.loaded position loaded hphase
  have hbatch : position ∈ s.stream taskId := h.batchSeen position (by rw [hphase]; rfl)
  exact h.saves hnone (hposition ▸ hseen) hbatch (.inr rfl)

theorem Inv.moves_settled (h : Inv taskId s) {position : Position}
    (hphase : s.phase taskId = .committed position) :
    Inv taskId { s.setPhase taskId .idle with
      checkpoints := s.checkpoints.insert taskId position } := by
  have hnext : (s.setPhase taskId .idle).phase taskId = .idle := Function.update_self ..
  have hnone (q : Position) : ¬ s.Waits taskId q :=
    h.not_waits (by simp [hphase]) (by simp [hphase]) q
  refine ⟨fun q hq => absurd hq (hnone q), h.agree, fun q hq => absurd hq (hnone q),
    fun p cp hc => ?_, h.storedSeen, fun p hp => ?_, fun p hp => ?_, fun p hp => ?_⟩
  · cases hnext.symm.trans hc
  · obtain rfl := Option.some.inj ((AList.lookup_insert s.checkpoints).symm.trans hp)
    exact h.batchSeen position (by rw [hphase]; rfl)
  · rw [hnext] at hp
    cases hp
  · cases hnext.symm.trans hp

theorem Inv.moves_read (h : Inv taskId s) {order : List (String × Position)} {final : Bool}
    (hidle : s.phase taskId = .idle)
    (hagree : ∀ position cp, s.checkpoints.lookup taskId = some position →
      s.stored taskId = some cp → cp.position = position)
    (horder : ∀ position, (taskId, position) ∈ order →
      s.checkpoints.lookup taskId = some position) :
    Inv taskId { s with persistence := .saving order final } := by
  -- what waits now has been read, or was waiting before
  have hmap : ∀ q, ({ s with persistence := .saving order final } : State).Waits taskId q →
      s.checkpoints.lookup taskId = some q := by
    rintro q (⟨rest, final', hsaving, hmem⟩ | hrest)
    · cases hsaving
      exact horder q hmem
    · exact h.fromMap q (.inr hrest)
  exact ⟨hmap, fun q hq cp hcp => hagree q cp (hmap q hq) hcp, fun _ _ => .inl hidle, h.loaded,
    h.storedSeen, h.mapSeen, h.batchSeen, h.begunLast⟩

theorem Moves.inv (hm : Moves taskId s s') (h : Inv taskId s) : Inv taskId s' := by
  cases hm with
  | begun position hstream => exact h.moves_begun hstream
  | prepared cp position reply hphase hnone hposition =>
    exact h.moves_prepared hphase hnone hposition
  | loaded cp position hphase hloaded => exact h.moves_loaded hphase hloaded
  | saved loaded cp position reply hphase hposition => exact h.moves_saved hphase hposition
  | settled position hphase => exact h.moves_settled hphase
  | read order final hidle hagree horder => exact h.moves_read hidle hagree horder

theorem Moves.notBackwards (hm : Moves taskId s s') (h : Inv taskId s) :
    NotBackwards taskId s s' := by
  intro cp₀ cp₁ hcp₀ hcp₁
  have hsame (hstored : s.stored taskId = some cp₁) :
      cp₀.position.isAfter cp₁.position = false := by
    obtain rfl := Option.some.inj (hcp₀.symm.trans hstored)
    exact Position.isAfter_self _
  cases hm with
  | begun | loaded | settled | read => exact hsame hcp₁
  | prepared cp position reply hphase hnone hposition =>
    have hcp := (stored_save s reply cp taskId).symm.trans hcp₁
    split at hcp
    · -- the batch's position comes after everything seen of the stream
      obtain rfl := Option.some.inj hcp
      rw [hposition]
      exact h.begunLast position hphase _ (h.storedSeen cp₀ hcp₀)
    · exact hsame hcp
  | saved loaded cp position reply hphase hposition =>
    have hcp := (stored_save s reply cp taskId).symm.trans hcp₁
    split at hcp
    · -- the record is the one the commit has loaded
      obtain rfl := Option.some.inj hcp
      rw [hposition, (h.loaded position loaded hphase).2.2 cp₀ hcp₀]
      exact Position.isAfter_self _
    · exact hsame hcp

theorem Inv.init (h : Starts s) (taskId : String) : Inv taskId s := by
  have hnone : ∀ q, ¬ s.Waits taskId q := by
    rintro q (⟨rest, final, hsaving, -⟩ | hcommand | ⟨cp, hpending, -⟩)
    · cases h.persistence.symm.trans hsaving
    · simp [h.commands] at hcommand
    · simp [h.pending] at hpending
  refine ⟨fun q hq => absurd hq (hnone q), fun q hq => absurd hq (hnone q),
    fun q hq => absurd hq (hnone q), fun p cp hc => ?_, h.stream taskId, fun p hp => ?_,
    fun p hp => ?_, fun p hp => ?_⟩
  · cases (h.phase taskId).symm.trans hc
  · obtain ⟨cp, hcp, rfl⟩ := h.checkpoints taskId p hp
    exact h.stream taskId cp hcp
  · rw [h.phase taskId] at hp
    cases hp
  · cases (h.phase taskId).symm.trans hp

theorem reachable_inv
    (h : ((machine batchSize).restrict (InStep taskId)).Reachable s) :
    LoadedOwn s ∧ Inv taskId s := by
  refine h.invariant (I := fun s => LoadedOwn s ∧ Inv taskId s) (fun s hs => ⟨?_, Inv.init hs _⟩) ?_
  · exact fun other p cp hc => nomatch (hs.phase other).symm.trans hc
  · rintro s l s' ⟨hown, hinv⟩ ⟨hok, -, hs⟩
    refine ⟨hown.step hs, ?_⟩
    rcases step_cases hown hok hs with hquiet | hmoves
    · exact hquiet.inv hinv
    · exact hmoves.inv hinv

/-- **The stored checkpoint of a task never moves backwards** in a run in which the map is read
between the task's batches, while it has the position of the stored record, and in which a batch is
prepared only when no `Save` of the task waits. -/
theorem checkpoint_monotone (batchSize : Nat) (taskId : String) (s s' : State) (l : Label)
    (h : ((machine batchSize).restrict (InStep taskId)).Reachable s)
    (hs : ((machine batchSize).restrict (InStep taskId)).step s l s') :
    NotBackwards taskId s s' := by
  obtain ⟨hown, hinv⟩ := reachable_inv h
  rcases step_cases hown hs.1 hs.2.2 with hquiet | hmoves
  · exact hquiet.notBackwards hinv
  · exact hmoves.notBackwards hinv

/-! ### A delayed flush -/

theorem not_waits_of_empty {s : State} (hwaiting : s.persistence = .waiting)
    (hcommands : s.commands = []) (hpending : s.manager.pending = .empty) (taskId : String)
    (position : Position) : ¬ s.Waits taskId position := by
  rintro (⟨rest, final, hsaving, -⟩ | hcommand | ⟨cp, hlookup, -⟩)
  · cases hwaiting.symm.trans hsaving
  · simp [hcommands] at hcommand
  · simp [hpending] at hlookup

/-- A batch of the task `books` at `0/10` is committed; the map gets its position and is read, and
the `Save` has reached the manager's buffer. -/
theorem bookBuffered :
    ∃ s, ((machine 2).restrict (InStep "books")).Reachable s ∧ s.stopped = false ∧
      s.tasksDone = false ∧ s.phase "books" = .idle ∧ s.stream "books" = [.postgreSQL "0/10"] ∧
      (s.stored "books").map (·.position) = some (.postgreSQL "0/10") ∧
      (s.manager.pending.lookup "books").map (·.position) = some (.postgreSQL "0/10") := by
  have h₀ : ((machine 2).restrict (InStep "books")).Reachable start := .init start_starts
  have h₁ := h₀.step (l := Label.begin "books" (.postgreSQL "0/10"))
    ⟨trivial, rfl, .begin rfl rfl nofun⟩
  have h₂ := h₁.step (l := Label.prepare "books" "" "7e1" 0 .succeeds)
    ⟨fun _ => not_waits_of_empty rfl rfl rfl "books", rfl, .prepare rfl⟩
  have h₃ := h₂.step (l := Label.commitLoad "books" .succeeds) ⟨trivial, rfl, .commitLoad rfl rfl⟩
  have h₄ := h₃.step (l := Label.commitSave "books" "" 0 .succeeds) ⟨trivial, rfl, .commitSave rfl⟩
  have h₅ := h₄.step (l := Label.settle "books") ⟨trivial, rfl, .settle rfl nofun⟩
  have h₆ := h₅.step (l := Label.read [("books", .postgreSQL "0/10")] false)
    ⟨⟨rfl, fun position cp hmap hstored => by cases hmap; cases hstored; rfl⟩, rfl,
      .read rfl nofun (.refl _)⟩
  have h₇ := h₆.step (l := Label.sendSave) ⟨trivial, rfl, .sendSave rfl (by decide)⟩
  have h₈ := h₇.step (l := Label.endSaving) ⟨trivial, rfl, .endSaving rfl⟩
  have h₉ := h₈.step (l := Label.receive works) ⟨trivial, rfl, .receive rfl⟩
  exact ⟨_, h₉, rfl, rfl, rfl, rfl, rfl, rfl⟩

/-- The flush writes the position that is stored already. -/
theorem checkpoint_monotone_book :
    ∃ s s', (s.stored "books").map (·.position) = some (.postgreSQL "0/10") ∧
      (s'.stored "books").map (·.position) = some (.postgreSQL "0/10") ∧
      NotBackwards "books" s s' := by
  obtain ⟨s, h, hrun, -, -, -, hstored, hpending⟩ := bookBuffered
  have hs : ((machine 2).restrict (InStep "books")).step s (.flushTick works) _ :=
    ⟨trivial, hrun, .flushTick⟩
  refine ⟨s, _, hstored, ?_, checkpoint_monotone 2 "books" _ _ _ h hs⟩
  show ((CheckpointManager.flushPending works.save s.manager).storage.lookup "books").map _ = _
  rw [CheckpointManager.flushPending_storage]
  cases hlookup : s.manager.pending.lookup "books" with
  | none => simp [hlookup] at hpending
  | some cp => simpa [hlookup, works, Reply.takesEffect] using hpending

/-- The next batch is prepared before the flush, which then writes the earlier position over its
record. -/
theorem checkpoint_not_always_monotone : ¬ ∀ (batchSize : Nat) (taskId : String) (s s' : State)
    (l : Label), (machine batchSize).Reachable s → (machine batchSize).step s l s' →
    NotBackwards taskId s s' := by
  intro h
  obtain ⟨s, hr, hrun, htasks, hidle, hstream, -, hpending⟩ := bookBuffered
  have hbegun := hr.of_restrict.step (l := Label.begin "books" (.postgreSQL "0/20"))
    ⟨hrun, .begin htasks hidle (by rw [hstream]; decide)⟩
  have hprepared := hbegun.step (l := Label.prepare "books" "" "8f2" 0 .succeeds)
    ⟨hrun, .prepare rfl⟩
  have hflushed := h 2 "books" _ _ (.flushTick works) hprepared ⟨hrun, .flushTick⟩
  cases hlookup : s.manager.pending.lookup "books" with
  | none => simp [hlookup] at hpending
  | some cp =>
    have hbackwards := hflushed (preparedRecord "books" "" "8f2" 0 (.postgreSQL "0/20")) cp ?_ ?_
    · obtain hposition : cp.position = .postgreSQL "0/10" := by simpa [hlookup] using hpending
      rw [hposition] at hbackwards
      exact absurd hbackwards (by decide)
    · simp [State.stored, State.setPhase, State.save, State.setStorage, Reply.call, preparedRecord]
    · show (CheckpointManager.flushPending _ _).storage.lookup "books" = some cp
      rw [CheckpointManager.flushPending_storage]
      simp [State.setPhase, State.save, State.setStorage, hlookup, works, Reply.takesEffect]

end CheckpointFlow

end MeiliBridge
