import MeiliBridge.Source.Replication

/-!
# Reading on after a crash

What the slot has passed it never returns again, whether the process has got as far as a stored
checkpoint or not. `Resumes` is the law that a restarted process reads every change of the task that
the crash left after the stored checkpoint. It holds in the runs in which, at every crash, the
checkpoint has caught up with the slot: everything that the slot has passed lies at or before it.
-/

set_option autoImplicit false

namespace MeiliBridge

open Interaction Trans

namespace Replication

/-- The checkpoint does not reach the event. -/
def Unreached (checkpoint : Option Checkpoint) (e : Event) : Prop :=
  ∀ cp position, checkpoint = some cp → extractPositionFromEvent e = some position →
    ¬ cp.position.AtOrAfter position

/-- The row is a change of the task that the checkpoint does not reach. -/
def Pending (setup : Setup) (checkpoint : Option Checkpoint) (row : Row) : Prop :=
  ∃ e, setup.decode row.lsn row.data = .ok (some e) ∧ setup.table ∈ e.targets ∧
    Unreached checkpoint e

/-- The row at this place is one that the last crash left after the checkpoint. -/
def Owed (setup : Setup) (s : State) (n : Nat) : Prop :=
  ∃ c row, s.crash = some c ∧ n < c.logLength ∧ s.log[n]? = some row ∧
    Pending setup c.checkpoint row

/-- The process has read all that is owed; or it has not read the slot yet, and its first look at it
will return what is missing. -/
def Resumes (setup : Setup) (s : State) : Prop :=
  ∀ n, Owed setup s n → n ∈ s.read ∨ s.polled = false ∧ s.slot.confirmed ≤ n

/-- Whenever the process crashes, the checkpoint it leaves has reached everything of the task that
the slot has passed. -/
def CaughtUp (setup : Setup) (s : State) : Label → Prop
  | .crash w => ∀ n row, n < s.slot.confirmed → s.log[n]? = some row →
      ¬ Pending setup (w.storage.lookup setup.params.task.taskId) row
  | _ => True

/-! ## The invariant -/

structure ResumeInv (setup : Setup) (s : State) : Prop where
  plugin : s.slot.plugin = "test_decoding"
  confirmed : s.slot.confirmed ≤ s.log.length
  crashed : ∀ c, s.crash = some c → c.logLength ≤ s.log.length
  resumes : Resumes setup s

variable {setup : Setup} {s s' : State}

theorem Slot.createSlot_same {slot : Slot} (h : slot.plugin = "test_decoding") (logLength : Nat) :
    slot.createSlot logLength = slot := if_pos h

theorem Slot.startReplication_same {slot : Slot} (h : slot.plugin = "test_decoding")
    (logLength : Nat) : slot.startReplication logLength = slot := by
  unfold startReplication
  rw [h]
  rfl

/-- Steps that leave the log, the slot and the record of what was read alone. -/
theorem ResumeInv.same (hi : ResumeInv setup s) (hlog : s'.log = s.log) (hslot : s'.slot = s.slot)
    (hcrash : s'.crash = s.crash) (hread : s'.read = s.read) (hpolled : s'.polled = s.polled) :
    ResumeInv setup s' where
  plugin := by
    rw [hslot]
    exact hi.plugin
  confirmed := by
    rw [hslot, hlog]
    exact hi.confirmed
  crashed := by
    rw [hcrash, hlog]
    exact hi.crashed
  resumes n howed := by
    rw [hread, hpolled, hslot]
    refine hi.resumes n ?_
    unfold Owed at howed ⊢
    rwa [hcrash, hlog] at howed

theorem ResumeInv.commit (hi : ResumeInv setup s) (row : Row) :
    ResumeInv setup { s with log := s.log ++ [row] } where
  plugin := hi.plugin
  confirmed := by
    show s.slot.confirmed ≤ (s.log ++ [row]).length
    rw [List.length_append]
    exact Nat.le_add_right_of_le hi.confirmed
  crashed c hc := by
    show c.logLength ≤ (s.log ++ [row]).length
    rw [List.length_append]
    exact Nat.le_add_right_of_le (hi.crashed c hc)
  resumes n howed := by
    obtain ⟨c, row', hc, hn, hrow, hpending⟩ := howed
    refine hi.resumes n ⟨c, row', hc, hn, ?_, hpending⟩
    -- the crash came before the row
    replace hrow : (s.log ++ [row])[n]? = some row' := hrow
    rwa [List.getElem?_append_left (Nat.lt_of_lt_of_le hn (hi.crashed c hc))] at hrow

/-- A look at the slot returns all that it has not passed. -/
theorem ResumeInv.poll (hi : ResumeInv setup s) (phase : Phase) :
    ResumeInv setup { s with
      slot := { s.slot with confirmed := s.log.length }
      phase
      read := s.read ++ List.range' s.slot.confirmed (s.log.length - s.slot.confirmed)
      polled := true } where
  plugin := hi.plugin
  confirmed := Nat.le_refl _
  crashed := hi.crashed
  resumes n howed := by
    left
    rcases hi.resumes n howed with hread | ⟨-, hconfirmed⟩
    · exact List.mem_append_left _ hread
    · obtain ⟨c, row, hc, hn, hrow, -⟩ := howed
      refine List.mem_append_right _ (List.mem_range'_1.mpr ⟨hconfirmed, ?_⟩)
      have hlength := hi.confirmed
      have hlog : n < s.log.length := Nat.lt_of_lt_of_le hn (hi.crashed c hc)
      omega

/-- A crash at a moment when the checkpoint has caught up. -/
theorem ResumeInv.crash (hi : ResumeInv setup s) {w : World}
    (hok : CaughtUp setup s (.crash w)) :
    ResumeInv setup { s with
      phase := .down w.storage
      crash := some ⟨s.log.length, w.storage.lookup setup.params.task.taskId⟩
      read := []
      polled := false } where
  plugin := hi.plugin
  confirmed := hi.confirmed
  crashed c hc := by
    cases hc
    exact Nat.le_refl _
  resumes n howed := by
    obtain ⟨c, row, hc, hn, hrow, hpending⟩ := howed
    cases hc
    right
    refine ⟨rfl, ?_⟩
    by_contra hpassed
    exact hok n row (Nat.lt_of_not_le hpassed) hrow hpending

theorem ResumeInv.step {l : Label} (hi : ResumeInv setup s) (hok : CaughtUp setup s l)
    (hs : Step setup s l s') : ResumeInv setup s' := by
  cases hs with
  | commit => exact hi.commit _
  | getChanges hup h =>
    exact hi.same rfl (Slot.startReplication_same hi.plugin _) rfl rfl rfl
  | poll hup hconsumer => exact hi.poll _
  | process hup h => exact hi.same rfl rfl rfl rfl rfl
  | crash hup hcrash => exact hi.crash hok
  | restart hdown hstorage hloads hadapter =>
    exact hi.same rfl (Slot.createSlot_same hi.plugin _) rfl rfl rfl

theorem ResumeInv.init (h : Starts setup s) : ResumeInv setup s where
  plugin := h.plugin
  confirmed := h.confirmed
  crashed c hc := by
    rw [h.crash] at hc
    cases hc
  resumes n howed := by
    obtain ⟨c, row, hc, -⟩ := howed
    rw [h.crash] at hc
    cases hc

/-- **Reading on after a crash.** In every run in which the stored checkpoint has caught up with the
slot at each crash, the restarted process reads again whatever lies after that checkpoint. -/
theorem resumes_after_crash (setup : Setup) (s : State)
    (h : ((machine setup).restrict (CaughtUp setup)).Reachable s) : Resumes setup s := by
  have hinv : ResumeInv setup s := by
    refine h.invariant (I := ResumeInv setup) (fun _ hs => .init hs) ?_
    intro s l s' hi hs
    exact hi.step hs.1 hs.2
  exact hinv.resumes

/-! ### One insert -/

/-- An insert into `users`, as the slot returns it. -/
def usersRow : Row := ⟨"0/10", "731", "table public.users: INSERT: id[integer]:1"⟩

/-- The event of that row. -/
def userInserted (lsn : String) : Event :=
  .cdc ⟨.create, "users", "public", [("id", .number (.ofNat 1))], some (.postgreSQL lsn)⟩

/-- A source with one task, for `users`. -/
def usersSetup : Setup where
  decode lsn data := .ok (if data = usersRow.data then some (userInserted lsn) else none)
  parsesLsn _ := true
  tables := ["users"]
  table := "users"
  params := ⟨⟨id, id, ""⟩, ⟨none, none, none, none⟩, 100, ⟨"users", true, none⟩⟩
  parallel := false

/-- The task has a stored checkpoint. -/
def usersRecord : Checkpoint := ⟨"7d", "users", .postgreSQL "0/8", 0, .null⟩

def usersWorld : World :=
  { freshWorld with
    storage := (∅ : Dict Checkpoint).insert "users" usersRecord
    checkpoints := (∅ : Dict Position).insert "users" (.postgreSQL "0/8") }

/-- The process after its start, with this log and this slot. -/
def usersStarted : State where
  log := []
  slot := ⟨"test_decoding", 0⟩
  phase := .up (boot usersSetup ⟨some "0/8"⟩ [usersRecord] usersWorld)
  crash := none
  read := []
  polled := false

theorem usersStarted_starts : Starts usersSetup usersStarted :=
  ⟨⟨_, _, _, rfl⟩, rfl, Nat.le_refl _, rfl, rfl, rfl⟩

theorem pending_usersRow : Pending usersSetup (some usersRecord) usersRow := by
  refine ⟨userInserted "0/10", by decide, by decide, ?_⟩
  intro cp position hcp hposition
  cases hcp
  cases hposition
  exact Position.not_atOrAfter (by decide)

theorem loads_usersRecord : ∀ cp ∈ [usersRecord],
    usersWorld.storage.lookup cp.taskId = some cp := by
  intro cp hcp
  rcases List.mem_singleton.mp hcp with rfl
  rfl

/-- The crash comes before the row is read. -/
theorem resumes_after_crash_users :
    ∃ s : State, s.read = [0] ∧ Owed usersSetup s 0 ∧ Resumes usersSetup s := by
  have h₀ : ((machine usersSetup).restrict (CaughtUp usersSetup)).Reachable usersStarted :=
    .init usersStarted_starts
  have h₁ := h₀.step (l := Label.commit usersRow) ⟨trivial, .commit⟩
  have h₂ := h₁.step (l := Label.crash usersWorld) ⟨?_, .crash rfl (.inl rfl)⟩
  have h₃ := h₂.step (l := Label.restart [usersRecord] usersWorld)
    ⟨trivial, .restart rfl rfl loads_usersRecord rfl⟩
  have h₄ := h₃.step (l := Label.getChanges none) ⟨trivial, .getChanges rfl (.start rfl)⟩
  have h₅ := h₄.step (l := Label.poll) ⟨trivial, .poll rfl rfl⟩
  · exact ⟨_, rfl, ⟨_, usersRow, rfl, by decide, rfl, pending_usersRow⟩,
      resumes_after_crash _ _ h₅⟩
  · intro n row hn
    cases hn

/-- The crash comes after the row is read, and the restarted process does not get it again. -/
theorem not_always_resumes_after_crash :
    ¬ ∀ (setup : Setup) (s : State), (machine setup).Reachable s → Resumes setup s := by
  intro h
  have h₀ : (machine usersSetup).Reachable usersStarted := .init usersStarted_starts
  have h₁ := h₀.step (l := Label.commit usersRow) .commit
  have h₂ := h₁.step (l := Label.getChanges none) (.getChanges rfl (.start rfl))
  have h₃ := h₂.step (l := Label.poll) (.poll rfl rfl)
  have h₄ := h₃.step (l := Label.crash usersWorld) (.crash rfl (.inl rfl))
  have h₅ := h₄.step (l := Label.restart [usersRecord] usersWorld)
    (.restart rfl rfl loads_usersRecord rfl)
  have h₆ := h₅.step (l := Label.getChanges none) (.getChanges rfl (.start rfl))
  have h₇ := h₆.step (l := Label.poll) (.poll rfl rfl)
  rcases h _ _ h₇ 0 ⟨_, usersRow, rfl, by decide, rfl, pending_usersRow⟩ with hread | ⟨hpolled, -⟩
  · cases hread
  · cases hpolled

end Replication

end MeiliBridge
