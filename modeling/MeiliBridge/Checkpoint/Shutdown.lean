import MeiliBridge.Checkpoint.Flow

/-!
# What a graceful shutdown has stored

`stop()` waits for the pipelines and for the persistence task, in no particular order, and not for
the manager: it returns while the final `Save`s are still in the manager's channel or buffer, or
after a pipeline has moved the map behind the final reading. `shutdown_saved` proves that the
storage holds the map's positions when neither happens: once the persistence task has read the map
for the last time nothing else writes the map or the records, and the manager has flushed
everything when `stop()` returns.
-/

set_option autoImplicit false

namespace MeiliBridge

open Trans

namespace CheckpointFlow

/-- Every position of the map is stored. -/
def Saved (s : State) : Prop :=
  ∀ taskId position, s.checkpoints.lookup taskId = some position →
    ∃ cp, s.stored taskId = some cp ∧ cp.position = position

/-- The persistence task has read the map for the last time. -/
def State.FinallyRead (s : State) : Prop :=
  s.persistence = .finished ∨ ∃ rest, s.persistence = .saving rest true

/-- After the final reading nothing writes the map or a record but the manager; and `stop()` returns
when the manager has taken every command and flushed its buffer. -/
def InTime (s : State) : Label → Prop
  | .move _ _ | .prepare _ _ _ _ _ | .commitSave _ _ _ _ | .settle _ | .rollback _ _
  | .expire _ _ => ¬ s.FinallyRead
  | .send cmd => s.FinallyRead → ∀ taskId, cmd ≠ .delete taskId
  | .stopReturns => s.commands = [] ∧ ∀ taskId, s.manager.pending.lookup taskId = none
  | _ => True

/-- What the persistence task has still to send. -/
def Persistence.toSend : Persistence → List CheckpointCommand
  | .saving rest _ => rest.map fun x => .save x.1 x.2
  | .waiting | .finished => []

/-- The commands on their way to the manager, in order. -/
def State.underway (s : State) : List CheckpointCommand := s.commands ++ s.persistence.toSend

/-- When the manager has taken the commands under way, a `Load` finds this position: the last of
them about the task saves it, or there is none and a `Load` finds it now. -/
def Carries (s : State) (taskId : String) (position : Position) : Prop :=
  (∃ before, s.underway.filter (CheckpointManager.About taskId) =
    before ++ [.save taskId position]) ∨
  s.underway.filter (CheckpointManager.About taskId) = [] ∧
    (s.manager.view taskId).map (·.position) = some position

/-- After the final reading every position of the map is on its way. -/
structure Carried (s : State) : Prop where
  carries : s.FinallyRead → ∀ taskId position, s.checkpoints.lookup taskId = some position →
    Carries s taskId position
  stopped : s.stopped = true → Saved s

variable {taskId : String} {position : Position} {s s' : State} {l : Label} {batchSize : Nat}

/-- A step that moves nothing on the way from the map to the storage. -/
theorem Carried.same (h : Carried s) (hfinal : s'.FinallyRead → s.FinallyRead)
    (hmap : s'.checkpoints = s.checkpoints) (hway : s'.underway = s.underway)
    (hmanager : s'.manager = s.manager) (hrun : s'.stopped = false) : Carried s' where
  carries hread taskId position hlookup := by
    rw [Carries, hway, hmanager]
    exact h.carries (hfinal hread) taskId position (hmap ▸ hlookup)
  stopped hstopped := by simp [hrun] at hstopped

/-- Before the final reading there is nothing to show. -/
theorem Carried.before (hfinal : ¬ s'.FinallyRead) (hrun : s'.stopped = false) : Carried s' :=
  ⟨fun h => absurd h hfinal, fun h => by simp [hrun] at h⟩

/-- A nonempty list all of whose elements are `x` ends with `x`. -/
theorem exists_append_of_forall_eq {α : Type} {xs : List α} {x : α} (hmem : x ∈ xs)
    (hall : ∀ y ∈ xs, y = x) : ∃ before, xs = before ++ [x] := by
  have hne : xs ≠ [] := List.ne_nil_of_mem hmem
  refine ⟨xs.dropLast, ?_⟩
  rw [← hall _ (List.getLast_mem hne), List.dropLast_append_getLast hne]

theorem carries_read {order : List (String × Position)} {final : Bool}
    (horder : order.Perm (s.checkpoints.entries.map fun entry => (entry.1, entry.2)))
    (hlookup : s.checkpoints.lookup taskId = some position) :
    Carries { s with persistence := .saving order final } taskId position := by
  have hentry (q : Position) : (taskId, q) ∈ order ↔ s.checkpoints.lookup taskId = some q := by
    rw [horder.mem_iff]
    have hiff : q ∈ s.checkpoints.lookup taskId ↔ ⟨taskId, q⟩ ∈ s.checkpoints.entries :=
      List.mem_dlookup_iff s.checkpoints.nodupKeys
    rw [← Option.mem_def, hiff]
    constructor
    · intro h
      obtain ⟨⟨other, q'⟩, hmem, heq⟩ := List.mem_map.mp h
      obtain ⟨rfl, rfl⟩ := Prod.mk.injEq .. ▸ heq
      exact hmem
    · exact fun h => List.mem_map.mpr ⟨_, h, rfl⟩
  -- the reading adds one `Save` of the task, of its position
  have hread : ∃ before, (order.map fun x => CheckpointCommand.save x.1 x.2).filter
      (CheckpointManager.About taskId) = before ++ [.save taskId position] := by
    refine exists_append_of_forall_eq ?_ fun cmd hcmd => ?_
    · refine List.mem_filter.mpr ⟨?_, by simp [CheckpointManager.About]⟩
      exact List.mem_map.mpr ⟨_, (hentry position).mpr hlookup, rfl⟩
    · obtain ⟨hmem, habout⟩ := List.mem_filter.mp hcmd
      obtain ⟨⟨other, q⟩, hsaved, rfl⟩ := List.mem_map.mp hmem
      obtain rfl : other = taskId := by simpa [CheckpointManager.About] using habout
      rw [Option.some.inj (((hentry q).mp hsaved).symm.trans hlookup)]
  obtain ⟨before, hbefore⟩ := hread
  refine .inl ⟨s.commands.filter (CheckpointManager.About taskId) ++ before, ?_⟩
  show (s.commands ++ order.map _).filter _ = _
  rw [List.filter_append, hbefore, List.append_assoc]

theorem Carries.receive {choice : ManagerChoice} {cmd : CheckpointCommand}
    {rest : List CheckpointCommand} (h : Carries s taskId position)
    (hcommands : s.commands = cmd :: rest) :
    Carries { s with
      commands := rest
      manager := (CheckpointManager.handle batchSize choice s.manager (.command cmd)).2 }
      taskId position := by
  have hway : s.underway = cmd :: (rest ++ s.persistence.toSend) := by
    rw [State.underway, hcommands, List.cons_append]
  rw [Carries, hway] at h
  unfold Carries
  show (∃ before, (rest ++ s.persistence.toSend).filter _ = _) ∨
    (rest ++ s.persistence.toSend).filter _ = [] ∧ _
  cases habout : CheckpointManager.About taskId cmd with
  | false =>
    rw [List.filter_cons_of_neg (by simp [habout])] at h
    rw [CheckpointManager.view_handle_other habout]
    exact h
  | true =>
    rw [List.filter_cons_of_pos habout] at h
    rcases h with ⟨before, hbefore⟩ | ⟨hnil, -⟩
    · cases before with
      | nil =>
        -- the manager takes the last command about the task
        obtain ⟨rfl, hrest⟩ := List.cons.inj hbefore
        refine .inr ⟨hrest, ?_⟩
        rw [CheckpointManager.view_handle_save]
        rfl
      | cons first before => exact .inl ⟨before, (List.cons.inj hbefore).2⟩
    · cases hnil

theorem Carries.flush {reply : String → Reply} (h : Carries s taskId position) :
    Carries { s with manager := CheckpointManager.flushPending reply s.manager }
      taskId position := by
  unfold Carries at h ⊢
  rw [CheckpointManager.view_flushPending]
  exact h

theorem Carries.saved (h : Carries s taskId position) (hcommands : s.commands = [])
    (hsent : s.persistence.toSend = [])
    (hpending : s.manager.pending.lookup taskId = none) :
    ∃ cp, s.stored taskId = some cp ∧ cp.position = position := by
  rw [Carries, State.underway, hcommands, hsent] at h
  rcases h with ⟨before, hbefore⟩ | ⟨-, hview⟩
  · simp at hbefore
  · simpa [ManagerState.view, hpending, State.stored] using hview

theorem Carried.step (h : Carried s) (hrun : s.stopped = false) (hok : InTime s l)
    (hs : Step batchSize s l s') : Carried s' := by
  cases hs with
  -- these write the map or a record, and come before the final reading only
  | move | prepare | commitSave | settle | rollback | expire =>
    exact .before (fun hread => hok hread) hrun
  | begin | commitLoad | commitLoadFails | commitFails | signal | tasksFinish =>
    exact h.same (fun hread => hread) rfl rfl rfl hrun
  | read hphase hfinal horder =>
    exact ⟨fun _ taskId position hlookup => carries_read horder hlookup,
      fun hstopped => by simp [hrun] at hstopped⟩
  | @sendSave taskId position rest final hphase hroom =>
    refine h.same (fun hread => ?_) rfl ?_ rfl hrun
    · rcases hread with hfinished | ⟨rest', hsaving⟩
      · cases hfinished
      · cases hsaving
        exact .inr ⟨_, hphase⟩
    · simp [State.underway, hphase, Persistence.toSend]
  | @endSaving final hphase =>
    refine h.same (fun hread => ?_) rfl ?_ rfl hrun
    · cases final with
      | true => exact .inr ⟨_, hphase⟩
      | false =>
        rcases hread with hfinished | ⟨rest', hsaving⟩
        · cases hfinished
        · cases hsaving
    · cases final <;> simp [State.underway, hphase, Persistence.toSend]
  | @send cmd hcmd hroom =>
    refine ⟨fun hread taskId position hlookup => ?_, fun hstopped => by simp [hrun] at hstopped⟩
    -- no other sender's command is about the task
    have habout : CheckpointManager.About taskId cmd = false := by
      cases cmd with
      | save other q => exact absurd rfl (hcmd other q)
      | delete other => exact absurd rfl (hok hread other)
      | load | list | flush => rfl
    have hcarries := h.carries hread taskId position hlookup
    unfold Carries State.underway at hcarries ⊢
    simpa [List.filter_append, habout] using hcarries
  | receive hcommands =>
    exact ⟨fun hread taskId position hlookup =>
      (h.carries hread taskId position hlookup).receive hcommands,
      fun hstopped => by simp [hrun] at hstopped⟩
  | @flushTick choice =>
    exact ⟨fun hread taskId position hlookup =>
      (h.carries hread taskId position hlookup).flush,
      fun hstopped => by simp [hrun] at hstopped⟩
  | stopReturns hsignal hdone hfinished =>
    refine ⟨fun hread => h.carries hread, fun _ taskId position hlookup => ?_⟩
    exact (h.carries (.inl hfinished) taskId position hlookup).saved hok.1
      (by rw [hfinished]; rfl) (hok.2 taskId)

theorem Carried.init (h : Starts s) : Carried s := by
  refine .before ?_ h.stopped
  rintro (hfinished | ⟨rest, hsaving⟩)
  · cases h.persistence.symm.trans hfinished
  · cases h.persistence.symm.trans hsaving

theorem reachable_carried (h : ((machine batchSize).restrict InTime).Reachable s) : Carried s := by
  refine h.invariant (I := Carried) (fun _ hs => Carried.init hs) ?_
  rintro s l s' hcarried ⟨hok, hrun, hs⟩
  exact hcarried.step hrun hok hs

/-- **When `stop()` returns the storage holds the positions of the map**, in every run in which
nothing but the manager writes after the persistence task's final reading, and in which the manager
has nothing left to take or to flush by then. -/
theorem shutdown_saved (batchSize : Nat) (s : State)
    (h : ((machine batchSize).restrict InTime).Reachable s) (hstopped : s.stopped = true) :
    Saved s :=
  (reachable_carried h).stopped hstopped

/-! ### A position that waits for the manager -/

/-- Every save succeeds. -/
def SavesSucceed (_ : State) : Label → Prop
  | .prepare _ _ _ _ reply | .commitSave _ _ _ reply => reply = .succeeds
  | .receive choice | .flushTick choice => ∀ taskId, choice.save taskId = .succeeds
  | _ => True

/-- The position of the task `books` has gone through the final reading into the manager's channel,
and the pipelines and the persistence task have finished. -/
theorem bookSent :
    ∃ s, ((machine 1).restrict fun s l => InTime s l ∧ SavesSucceed s l).Reachable s ∧
      s.stopped = false ∧ s.shutdown = true ∧ s.tasksDone = true ∧ s.persistence = .finished ∧
      s.commands = [.save "books" (.postgreSQL "0/10")] ∧
      s.manager = ⟨.empty, .empty⟩ ∧
      s.checkpoints.lookup "books" = some (.postgreSQL "0/10") := by
  have hunread {s : State} (h : s.persistence = .waiting) : ¬ s.FinallyRead := by
    rintro (hfinished | ⟨rest, hsaving⟩)
    · cases h.symm.trans hfinished
    · cases h.symm.trans hsaving
  have h₀ : ((machine 1).restrict fun s l => InTime s l ∧ SavesSucceed s l).Reachable start :=
    .init start_starts
  have h₁ := h₀.step (l := Label.move "books" (.postgreSQL "0/10"))
    ⟨⟨hunread rfl, trivial⟩, rfl, .move rfl nofun⟩
  have h₂ := h₁.step (l := Label.signal) ⟨⟨trivial, trivial⟩, rfl, .signal⟩
  have h₃ := h₂.step (l := Label.tasksFinish)
    ⟨⟨trivial, trivial⟩, rfl, .tasksFinish rfl fun _ => rfl⟩
  have h₄ := h₃.step (l := Label.read [("books", .postgreSQL "0/10")] true)
    ⟨⟨trivial, trivial⟩, rfl, .read rfl (fun _ => rfl) (.refl _)⟩
  have h₅ := h₄.step (l := Label.sendSave)
    ⟨⟨trivial, trivial⟩, rfl, .sendSave rfl (by decide)⟩
  have h₆ := h₅.step (l := Label.endSaving) ⟨⟨trivial, trivial⟩, rfl, .endSaving rfl⟩
  exact ⟨_, h₆, rfl, rfl, rfl, rfl, rfl, rfl, rfl⟩

/-- `stop()` returns before the manager has taken the `Save`. -/
theorem shutdown_not_always_saved : ¬ ∀ (batchSize : Nat) (s : State),
    ((machine batchSize).restrict SavesSucceed).Reachable s → s.stopped = true → Saved s := by
  intro h
  obtain ⟨s, hr, hrun, hsignal, hdone, hfinished, -, hmanager, hmap⟩ := bookSent
  have hsent : ((machine 1).restrict SavesSucceed).Reachable s := hr.mono fun _ _ hok => hok.2
  have hstopped := hsent.step (l := Label.stopReturns)
    ⟨trivial, hrun, .stopReturns hsignal hdone hfinished⟩
  obtain ⟨cp, hcp, -⟩ := h 1 _ hstopped rfl "books" _ hmap
  simp [State.stored, hmanager] at hcp

/-- The manager takes the `Save` and flushes it before `stop()` returns. -/
theorem shutdown_saved_book :
    ∃ s : State, s.stopped = true ∧
      s.checkpoints.lookup "books" = some (.postgreSQL "0/10") ∧ Saved s := by
  obtain ⟨s, hr, hrun, hsignal, hdone, hfinished, hcommands, hmanager, hmap⟩ := bookSent
  have hsent : ((machine 1).restrict InTime).Reachable s := hr.mono fun _ _ hok => hok.1
  have htaken := hsent.step (l := Label.receive works) ⟨trivial, hrun, .receive hcommands⟩
  have hflushed : ∀ taskId, (CheckpointManager.handle 1 works s.manager
      (.command (.save "books" (.postgreSQL "0/10")))).2.pending.lookup taskId = none := by
    rw [hmanager]
    exact fun _ => rfl
  have hstopped := htaken.step (l := Label.stopReturns)
    ⟨⟨rfl, hflushed⟩, hrun, .stopReturns hsignal hdone hfinished⟩
  refine ⟨_, ?_, ?_, shutdown_saved 1 _ hstopped rfl⟩
  · rfl
  · exact hmap

end CheckpointFlow

end MeiliBridge
