import Mathlib.Data.List.Perm.Basic
import MeiliBridge.Checkpoint.Manager

/-!
# The checkpoint manager as a map

What the manager is for: a map from task ids to checkpoints, each of which is visible as soon as it
is saved. The buffer over the storage answers as that map does, because a flush moves checkpoints
from the one to the other and changes neither what a task finds nor, when a save fails, where it
finds it (`manager_refines_map`).
-/

set_option autoImplicit false

namespace MeiliBridge

namespace CheckpointManager

/-- The map, and its answer to one input. -/
def plainHandle (c : ManagerChoice) (m : CheckpointMap) :
    ManagerInput → ManagerAnswer × CheckpointMap
  | .command (.save taskId position) => (.none, m.save (newCheckpoint c taskId position))
  | .command (.load taskId) => (.loaded (m.lookup taskId), m)
  | .command (.delete taskId) => (.none, m.delete taskId)
  | .command .list => (.listed m.list, m)
  | .command .flush | .tick => (.none, m)

/-- The same answer, a list in whatever order. -/
inductive SameAnswer : ManagerAnswer → ManagerAnswer → Prop
  | none : SameAnswer .none .none
  | loaded (checkpoint : Option Checkpoint) : SameAnswer (.loaded checkpoint) (.loaded checkpoint)
  | listed {cps cps' : List Checkpoint} (h : cps.Perm cps') :
    SameAnswer (.listed cps) (.listed cps')

/-- The answers to a sequence of inputs. -/
def answers {σ : Type} (f : ManagerChoice → σ → ManagerInput → ManagerAnswer × σ) :
    σ → List (ManagerChoice × ManagerInput) → List ManagerAnswer
  | _, [] => []
  | s, (c, input) :: inputs => (f c s input).1 :: answers f (f c s input).2 inputs

/-- Loads, lists and deletions succeed; saves may fail. -/
def ReadsSucceed (c : ManagerChoice) : Prop :=
  c.load = .succeeds ∧ c.list = .succeeds ∧ c.delete = .succeeds

/-- The buffer over the storage is the map. -/
def Simulates (s : ManagerState) (m : CheckpointMap) : Prop :=
  ∀ taskId, m.lookup taskId = s.view taskId

variable {s : ManagerState} {m : CheckpointMap}

theorem Simulates.flush (h : Simulates s m) (reply : String → Reply) :
    Simulates (flushPending reply s) m := by
  intro taskId
  rw [h taskId, view_flushPending]

theorem Simulates.save (h : Simulates s m) (cp : Checkpoint) :
    Simulates { s with pending := s.pending.save cp } (m.save cp) := by
  intro taskId
  rw [CheckpointMap.lookup_save, view_save]
  split
  · rfl
  · exact h taskId

theorem Simulates.delete (h : Simulates s m) (taskId : String) :
    Simulates ⟨s.pending.delete taskId, s.storage.delete taskId⟩ (m.delete taskId) := by
  intro other
  simp only [ManagerState.view, CheckpointMap.lookup_delete]
  split
  · rfl
  · exact h other

/-! ## The list -/

theorem addStored_eq {cps : List Checkpoint} (hcps : (cps.map (·.taskId)).Nodup)
    (all : List Checkpoint) :
    addStored cps all = all ++ cps.filter fun cp => !all.any (·.taskId = cp.taskId) := by
  induction cps generalizing all with
  | nil => simp [addStored]
  | cons cp cps ih =>
    obtain ⟨hne, hcps⟩ := List.nodup_cons.mp hcps
    rw [addStored]
    split
    · next hany => rw [ih hcps, List.filter_cons_of_neg (by simp [hany])]
    · next hany =>
      rw [ih hcps, List.filter_cons_of_pos (by simpa using hany), List.append_assoc]
      -- the others have other task ids than the checkpoint that is added
      have hothers : ∀ x ∈ cps, cp.taskId ≠ x.taskId := fun x hx htask =>
        hne (List.mem_map.mpr ⟨x, hx, htask.symm⟩)
      show _ = all ++ ([cp] ++ _)
      congr 2
      exact List.filter_congr fun x hx => by simp [hothers x hx]

theorem nodup_taskIds (m : CheckpointMap) : (m.list.map (·.taskId)).Nodup :=
  List.Nodup.map_on (fun _ h _ h' htask => m.eq_of_mem_list h h' htask) m.nodup_list

theorem Simulates.list (h : Simulates s m) :
    (addStored s.storage.list s.pending.list).Perm m.list := by
  rw [addStored_eq (nodup_taskIds s.storage)]
  refine (List.perm_ext_iff_of_nodup ?_ m.nodup_list).mpr fun cp => ?_
  · refine s.pending.nodup_list.append (s.storage.nodup_list.filter _) fun cp hcp hstored => ?_
    simp only [List.mem_filter, Bool.not_eq_true', List.any_eq_false, decide_eq_true_eq] at hstored
    exact hstored.2 cp hcp rfl
  · have hview := h cp.taskId
    rw [ManagerState.view] at hview
    simp only [List.mem_append, List.mem_filter, CheckpointMap.mem_list, hview]
    cases hpending : s.pending.lookup cp.taskId with
    | none =>
      have hfree : s.pending.list.any (·.taskId = cp.taskId) = false := by
        simp only [List.any_eq_false, decide_eq_true_eq]
        intro x hx htask
        simp [← htask, s.pending.mem_list.mp hx] at hpending
      simp [hfree]
    | some cp' =>
      have htaken : s.pending.list.any (·.taskId = cp.taskId) = true := by
        have htask := s.pending.keyed _ _ hpending
        refine List.any_eq_true.mpr ⟨cp', s.pending.mem_list.mpr (htask ▸ hpending), ?_⟩
        simpa using htask
      simp [htaken]

/-! ## The refinement -/

/-- One input is answered as the map answers it, and the states stay related. -/
theorem Simulates.handle (h : Simulates s m) (batchSize : Nat) {c : ManagerChoice}
    (hreads : ReadsSucceed c) (input : ManagerInput) :
    SameAnswer (handle batchSize c s input).1 (plainHandle c m input).1 ∧
      Simulates (CheckpointManager.handle batchSize c s input).2 (plainHandle c m input).2 := by
  obtain ⟨hload, hlist, hdelete⟩ := hreads
  cases input with
  | tick => exact ⟨.none, h.flush c.save⟩
  | command cmd =>
    cases cmd with
    | flush => exact ⟨.none, h.flush c.save⟩
    | save taskId position =>
      refine ⟨.none, ?_⟩
      have hsaved := h.save (newCheckpoint c taskId position)
      simp only [CheckpointManager.handle, plainHandle]
      split
      · exact hsaved.flush c.save
      · exact hsaved
    | delete taskId =>
      simp only [CheckpointManager.handle, plainHandle, hdelete, Reply.call]
      exact ⟨.none, h.delete taskId⟩
    | list =>
      simp only [CheckpointManager.handle, plainHandle, hlist]
      exact ⟨.listed h.list, h⟩
    -- a pending record answers before the storage does, as in the plain map
    | load taskId =>
      have hview := h taskId
      rw [ManagerState.view] at hview
      cases hpending : s.pending.lookup taskId with
      | some cp =>
        simp only [hpending, Option.some_or] at hview
        simp only [CheckpointManager.handle, plainHandle, hpending, hview]
        exact ⟨.loaded _, h⟩
      | none =>
        simp only [hpending, Option.none_or] at hview
        simp only [CheckpointManager.handle, plainHandle, hpending, hload, hview]
        exact ⟨.loaded _, h⟩

theorem Simulates.answers (batchSize : Nat) {inputs : List (ManagerChoice × ManagerInput)}
    (hreads : ∀ x ∈ inputs, ReadsSucceed x.1) (h : Simulates s m) :
    List.Forall₂ SameAnswer (answers (CheckpointManager.handle batchSize) s inputs)
      (CheckpointManager.answers plainHandle m inputs) := by
  induction inputs generalizing s m with
  | nil => exact .nil
  | cons x inputs ih =>
    have hstep := h.handle batchSize (hreads x List.mem_cons_self) x.2
    exact .cons hstep.1 (ih (fun y hy => hreads y (List.mem_cons_of_mem _ hy)) hstep.2)

/-- **The manager refines a map with immediate writes**: whatever the batch size, the commands and
the ticks, and whichever saves fail, it gives the map's answers. -/
theorem manager_refines_map (batchSize : Nat) (storage : CheckpointMap)
    (inputs : List (ManagerChoice × ManagerInput)) (hreads : ∀ x ∈ inputs, ReadsSucceed x.1) :
    List.Forall₂ SameAnswer
      (answers (handle batchSize) ⟨.empty, storage⟩ inputs) (answers plainHandle storage inputs) :=
  Simulates.answers batchSize hreads fun _ => rfl

/-- Reads succeed, and saves about the task `books` fail once. -/
def bookInputs : List (ManagerChoice × ManagerInput) :=
  let works : ManagerChoice := ⟨"3c9", 0, fun _ => .succeeds, .succeeds, .succeeds, .succeeds⟩
  let fails : ManagerChoice := { works with save := fun _ => .fails (.redis "timeout") false }
  [(fails, .command (.save "books" (.postgreSQL "0/10"))), (works, .command (.load "books")),
    (works, .tick), (works, .command .list), (works, .command (.delete "books")),
    (works, .command (.load "books"))]

/-- A save that fails at first, seen at once and after the next flush. -/
theorem manager_refines_map_book :
    answers plainHandle .empty bookInputs =
      [.none, .loaded (some ⟨"3c9", "books", .postgreSQL "0/10", 0, .null⟩), .none,
        .listed [⟨"3c9", "books", .postgreSQL "0/10", 0, .null⟩], .none, .loaded none] ∧
    List.Forall₂ SameAnswer (answers (handle 1) ⟨.empty, .empty⟩ bookInputs)
      (answers plainHandle .empty bookInputs) := by
  refine ⟨rfl, manager_refines_map 1 .empty bookInputs ?_⟩
  simp [bookInputs, ReadsSucceed]

end CheckpointManager

end MeiliBridge
