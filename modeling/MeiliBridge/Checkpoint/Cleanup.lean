import MeiliBridge.Lib.Trans
import MeiliBridge.Checkpoint.LastWrite
import MeiliBridge.Checkpoint.PlainMap

/-!
# The cleanup of checkpoints

`cleanup_checkpoints` asks the manager for its list, and sends a `Delete` for each listed checkpoint
of a task that is not active, and for those of an active task beyond the limit. All of this goes
through the manager's channel, between the commands of others. The list has one checkpoint a task,
so with a limit of at least one no active task is over it (`not_mem_deletes`).
`cleanup_safe_and_complete` says that the cleanup leaves the active tasks alone, and that the others
have no checkpoint left.
-/

set_option autoImplicit false

namespace MeiliBridge

open Trans CheckpointManager

/-- `CheckpointRetention`, and the active tasks of the configuration. -/
structure RetentionPolicy where
  activeTaskIds : List String
  maxCheckpointsPerTask : Nat

namespace CheckpointCleanup

/-! ## What is deleted -/

/-- The entry of a task in `checkpoints_by_task` -/
def byTask (checkpoints : List Checkpoint) (taskId : String) : List Checkpoint :=
  checkpoints.filter (·.taskId = taskId)

/-- `sort_by(|a, b| b.created_at.cmp(&a.created_at))` -/
def newestFirst (checkpoints : List Checkpoint) : List Checkpoint :=
  checkpoints.mergeSort fun a b => decide (b.createdAt ≤ a.createdAt)

/-- The checkpoints of tasks that are not active, where `order` is the order of the hash map. -/
def orphanDeletes (policy : RetentionPolicy) (order : List String)
    (groups : String → List Checkpoint) : List String :=
  (order.filter fun taskId => ! policy.activeTaskIds.contains taskId).flatMap fun taskId =>
    (groups taskId).map fun _ => taskId

/-- The checkpoints of active tasks beyond the limit. They leave their group, so a task that is
listed as active twice is trimmed once. -/
def trimDeletes (limit : Nat) : List String → (String → List Checkpoint) → List String
  | [], _ => []
  | taskId :: taskIds, groups =>
    let sorted := newestFirst (groups taskId)
    (sorted.drop limit).map (·.taskId) ++
      trimDeletes limit taskIds (Function.update groups taskId (sorted.take limit))

/-- The task ids of the `Delete`s, in the order in which they are sent. -/
def deletes (policy : RetentionPolicy) (checkpoints : List Checkpoint) (order : List String) :
    List String :=
  orphanDeletes policy order (byTask checkpoints) ++
    trimDeletes policy.maxCheckpointsPerTask policy.activeTaskIds (byTask checkpoints)

/-- The keys of `checkpoints_by_task`, in whatever order. -/
structure KeysOf (checkpoints : List Checkpoint) (order : List String) : Prop where
  nodup : order.Nodup
  mem : ∀ taskId, taskId ∈ order ↔ ∃ cp ∈ checkpoints, cp.taskId = taskId

variable {policy : RetentionPolicy} {checkpoints : List Checkpoint} {order : List String}
  {taskId : String}

theorem mem_byTask {cp : Checkpoint} :
    cp ∈ byTask checkpoints taskId ↔ cp ∈ checkpoints ∧ cp.taskId = taskId := by
  simp [byTask]

theorem mem_orphanDeletes {groups : String → List Checkpoint} :
    taskId ∈ orphanDeletes policy order groups ↔
      taskId ∈ order ∧ taskId ∉ policy.activeTaskIds ∧ groups taskId ≠ [] := by
  simp only [orphanDeletes, List.mem_flatMap, List.mem_filter, List.mem_map, Bool.not_eq_true',
    List.contains_eq_mem, decide_eq_false_iff_not]
  constructor
  · rintro ⟨other, ⟨horder, hactive⟩, cp, hcp, rfl⟩
    exact ⟨horder, hactive, List.ne_nil_of_mem hcp⟩
  · rintro ⟨horder, hactive, hgroup⟩
    obtain ⟨cp, hcp⟩ := List.exists_mem_of_ne_nil _ hgroup
    exact ⟨taskId, ⟨horder, hactive⟩, cp, hcp, rfl⟩

/-- Groups within the limit are not trimmed. -/
theorem trimDeletes_eq_nil {limit : Nat} (taskIds : List String) {groups : String → List Checkpoint}
    (h : ∀ taskId, (groups taskId).length ≤ limit) : trimDeletes limit taskIds groups = [] := by
  induction taskIds generalizing groups with
  | nil => rfl
  | cons taskId taskIds ih =>
    have hsorted : (newestFirst (groups taskId)).length ≤ limit := by
      rw [newestFirst, List.length_mergeSort]
      exact h taskId
    rw [trimDeletes, List.drop_eq_nil_of_le hsorted, List.take_of_length_le hsorted]
    refine ih fun other => ?_
    rw [Function.update_apply]
    split
    · exact hsorted
    · exact h other

/-- A list with one checkpoint a task has groups of one. -/
theorem length_byTask_le (h : (checkpoints.map (·.taskId)).Nodup) (taskId : String) :
    (byTask checkpoints taskId).length ≤ 1 := by
  have hcount := List.nodup_iff_count_le_one.mp h taskId
  rwa [List.count_eq_countP, List.countP_map, List.countP_eq_length_filter] at hcount

/-- Every listed task that is not active is deleted. -/
theorem mem_deletes (horder : KeysOf checkpoints order) (hactive : taskId ∉ policy.activeTaskIds)
    (hlisted : ∃ cp ∈ checkpoints, cp.taskId = taskId) :
    taskId ∈ deletes policy checkpoints order := by
  refine List.mem_append_left _
    (mem_orphanDeletes.mpr ⟨(horder.mem taskId).mpr hlisted, hactive, ?_⟩)
  obtain ⟨cp, hcp, htask⟩ := hlisted
  exact List.ne_nil_of_mem (mem_byTask.mpr ⟨hcp, htask⟩)

/-- Of a list with one checkpoint a task, no active task is deleted. -/
theorem not_mem_deletes (hlimit : 1 ≤ policy.maxCheckpointsPerTask)
    (hnodup : (checkpoints.map (·.taskId)).Nodup) (hactive : taskId ∈ policy.activeTaskIds) :
    taskId ∉ deletes policy checkpoints order := by
  have hgroups : ∀ other, (byTask checkpoints other).length ≤ policy.maxCheckpointsPerTask :=
    fun other => (length_byTask_le hnodup other).trans hlimit
  rw [deletes, trimDeletes_eq_nil _ hgroups, List.append_nil, mem_orphanDeletes]
  exact fun hmem => hmem.2.1 hactive

/-! ## The cleanup among the manager's commands -/

/-- A command in the channel: of others, or of the cleanup. -/
inductive Request where
  | other (cmd : CheckpointCommand)
  | ownList
  | ownDelete (taskId : String)

def Request.command : Request → CheckpointCommand
  | .other cmd => cmd
  | .ownList => .list
  | .ownDelete taskId => .delete taskId

/-- The commands of others. -/
def others : List Request → List CheckpointCommand
  | [] => []
  | .other cmd :: requests => cmd :: others requests
  | .ownList :: requests | .ownDelete _ :: requests => others requests

/-- Where `cleanup_checkpoints` stands. -/
inductive Phase where
  | notCalled
  /-- for the answer to its `List` -/
  | waiting
  | listed (checkpoints : List Checkpoint)
  /-- with the task ids it has still to send -/
  | deleting (rest : List String)
  | returned

/-- The manager's answer to the cleanup. -/
def Phase.answer (phase : Phase) : Request → ManagerAnswer → Phase
  | .ownList, .listed checkpoints => .listed checkpoints
  | _, _ => phase

structure State where
  queue : List Request
  manager : ManagerState
  cleanup : Phase
  /-- what the manager has taken from the channel, in order -/
  taken : List Request

/-- The capacity of the command channel. -/
def channelCapacity : Nat := 1000

inductive Label where
  /-- another caller sends a command -/
  | send (cmd : CheckpointCommand)
  | sendList
  | group (order : List String)
  | sendDelete
  | cleanupReturns
  | receive (choice : ManagerChoice)
  | tick (choice : ManagerChoice)

inductive Step (batchSize : Nat) (policy : RetentionPolicy) : State → Label → State → Prop
  | send {s : State} {cmd : CheckpointCommand} (hroom : s.queue.length < channelCapacity) :
      Step batchSize policy s (.send cmd) { s with queue := s.queue ++ [.other cmd] }
  | sendList {s : State} (hphase : s.cleanup = .notCalled)
      (hroom : s.queue.length < channelCapacity) :
      Step batchSize policy s .sendList
        { s with queue := s.queue ++ [.ownList], cleanup := .waiting }
  | group {s : State} {checkpoints : List Checkpoint} {order : List String}
      (hphase : s.cleanup = .listed checkpoints) (horder : KeysOf checkpoints order) :
      Step batchSize policy s (.group order)
        { s with cleanup := .deleting (deletes policy checkpoints order) }
  | sendDelete {s : State} {taskId : String} {rest : List String}
      (hphase : s.cleanup = .deleting (taskId :: rest))
      (hroom : s.queue.length < channelCapacity) :
      Step batchSize policy s .sendDelete
        { s with queue := s.queue ++ [.ownDelete taskId], cleanup := .deleting rest }
  | cleanupReturns {s : State} (hphase : s.cleanup = .deleting []) :
      Step batchSize policy s .cleanupReturns { s with cleanup := .returned }
  | receive {s : State} {choice : ManagerChoice} {request : Request} {rest : List Request}
      (hqueue : s.queue = request :: rest) :
      Step batchSize policy s (.receive choice)
        { queue := rest
          manager := (handle batchSize choice s.manager (.command request.command)).2
          cleanup := s.cleanup.answer request
            (handle batchSize choice s.manager (.command request.command)).1
          taken := s.taken ++ [request] }
  | tick {s : State} {choice : ManagerChoice} :
      Step batchSize policy s (.tick choice)
        { s with manager := (handle batchSize choice s.manager .tick).2 }

/-- The manager before the cleanup, whatever is in its buffer and in the storage. -/
def start (manager : ManagerState) : State := ⟨[], manager, .notCalled, []⟩

def machine (batchSize : Nat) (policy : RetentionPolicy) (manager : ManagerState) :
    Machine State Label where
  init s := s = start manager
  step := Step batchSize policy

/-- Nobody else deletes an active task's checkpoint. -/
def OthersKeep (policy : RetentionPolicy) (_ : State) : Label → Prop
  | .send cmd => ∀ taskId ∈ policy.activeTaskIds, cmd ≠ .delete taskId
  | _ => True

/-- Every storage operation of this input succeeds. -/
structure StorageWorks (choice : ManagerChoice) : Prop where
  save : ∀ taskId, choice.save taskId = .succeeds
  load : choice.load = .succeeds
  delete : choice.delete = .succeeds
  list : choice.list = .succeeds

/-- The storage works, and nobody saves a task that is not active once the cleanup has begun. -/
def Undisturbed (policy : RetentionPolicy) (s : State) : Label → Prop
  | .send (.save taskId _) => taskId ∈ policy.activeTaskIds ∨ s.cleanup = .notCalled
  | .receive choice | .tick choice => StorageWorks choice
  | _ => True

variable {batchSize : Nat} {manager : ManagerState} {s s' : State} {l : Label}

theorem others_append (requests more : List Request) :
    others (requests ++ more) = others requests ++ others more := by
  induction requests with
  | nil => rfl
  | cons request requests ih =>
    cases request with
    | other cmd => exact congrArg (cmd :: ·) ih
    | ownList => exact ih
    | ownDelete taskId => exact ih

/-! ## The active tasks -/

/-- The cleanup takes nothing from an active task: it sends no `Delete` of it, and a `Load` finds
what the commands of the others have made of it. -/
structure Safe (policy : RetentionPolicy) (manager : ManagerState) (s : State) : Prop where
  notSent : ∀ taskId ∈ policy.activeTaskIds, .ownDelete taskId ∉ s.taken ++ s.queue
  found : ∀ taskId ∈ policy.activeTaskIds,
    s.manager.found taskId = lastSaved taskId (manager.found taskId) (others s.taken)
  kept : ∀ taskId ∈ policy.activeTaskIds, (manager.found taskId).isSome →
    (s.manager.found taskId).isSome

/-- What the cleanup holds, by its phase. -/
def Planned (policy : RetentionPolicy) : Phase → Prop
  | .listed checkpoints => (checkpoints.map (·.taskId)).Nodup
  | .deleting rest => ∀ taskId ∈ policy.activeTaskIds, taskId ∉ rest
  | .notCalled | .waiting | .returned => True

/-- The invariant behind `Safe`. -/
structure Guarded (policy : RetentionPolicy) (manager : ManagerState) (s : State) : Prop where
  safe : Safe policy manager s
  planned : Planned policy s.cleanup
  others : ∀ taskId ∈ policy.activeTaskIds, .other (.delete taskId) ∉ s.queue

/-- The list has one checkpoint a task. -/
theorem nodup_listed {choice : ManagerChoice} {m : ManagerState} {cmd : CheckpointCommand}
    (h : (handle batchSize choice m (.command cmd)).1 = .listed checkpoints) :
    (checkpoints.map (·.taskId)).Nodup := by
  cases cmd with
  | list =>
    simp only [handle] at h
    split at h
    · obtain rfl := ManagerAnswer.listed.inj h
      rw [addStored_eq (nodup_taskIds m.storage), List.map_append]
      refine (nodup_taskIds m.pending).append ?_ ?_
      · exact (nodup_taskIds m.storage).sublist (List.filter_sublist.map _)
      · intro taskId hpending hstored
        obtain ⟨cp, hcp, rfl⟩ := List.mem_map.mp hpending
        obtain ⟨cp', hcp', htask⟩ := List.mem_map.mp hstored
        have hfree := (List.mem_filter.mp hcp').2
        simp only [Bool.not_eq_true', List.any_eq_false, decide_eq_true_eq] at hfree
        exact hfree cp hcp htask.symm
    · obtain rfl := ManagerAnswer.listed.inj h
      exact nodup_taskIds m.pending
  | load other =>
    simp only [handle] at h
    split at h
    · cases h
    · split at h <;> cases h
  | save other position => cases h
  | delete other => cases h
  | flush => cases h

theorem Planned.answer {phase : Phase} {request : Request} {answer : ManagerAnswer}
    (h : Planned policy phase)
    (hanswer : ∀ checkpoints, answer = .listed checkpoints → (checkpoints.map (·.taskId)).Nodup) :
    Planned policy (phase.answer request answer) := by
  cases request with
  | other cmd => exact h
  | ownDelete taskId => exact h
  | ownList =>
    cases answer with
    | none => exact h
    | loaded checkpoint => exact h
    | listed checkpoints => exact hanswer checkpoints rfl

theorem isSome_write {cmd : CheckpointCommand} {position : Option Position}
    (h : cmd ≠ .delete taskId) (hposition : position.isSome) :
    (cmd.write taskId position).isSome := by
  cases habout : About taskId cmd with
  | false => rwa [write_other habout]
  | true =>
    obtain ⟨saved, rfl⟩ := (eq_of_about habout).resolve_right h
    rw [write_save]
    rfl

/-- A request of the cleanup writes nothing about a task that it does not delete. -/
theorem lastSaved_others_concat {taken : List Request} {request : Request}
    {position : Option Position} (h : request ≠ .ownDelete taskId) :
    lastSaved taskId position (others (taken ++ [request])) =
      request.command.write taskId (lastSaved taskId position (others taken)) := by
  rw [others_append]
  cases request with
  | other cmd => exact lastSaved_concat
  | ownList =>
    show lastSaved taskId position (others taken ++ []) = _
    rw [List.append_nil]
    rfl
  | ownDelete other =>
    have hother : other ≠ taskId := by
      rintro rfl
      exact h rfl
    show lastSaved taskId position (others taken ++ []) = _
    rw [List.append_nil]
    exact (if_neg hother).symm

theorem not_mem_concat {x request : Request} {requests : List Request} (h : x ∉ requests)
    (hne : x ≠ request) : x ∉ requests ++ [request] := by
  rw [List.mem_append, List.mem_singleton]
  exact not_or.mpr ⟨h, hne⟩

/-- A request that is not a `Delete` of an active task gets into the channel. -/
theorem Guarded.enqueue (h : Guarded policy manager s) {request : Request} {phase : Phase}
    (hown : ∀ taskId ∈ policy.activeTaskIds, request ≠ .ownDelete taskId)
    (hothers : ∀ taskId ∈ policy.activeTaskIds, request ≠ .other (.delete taskId))
    (hplanned : Planned policy phase) :
    Guarded policy manager { s with queue := s.queue ++ [request], cleanup := phase } := by
  refine ⟨⟨fun taskId hactive => ?_, h.safe.found, h.safe.kept⟩, hplanned, fun taskId hactive => ?_⟩
  · show _ ∉ s.taken ++ (s.queue ++ [request])
    rw [← List.append_assoc]
    exact not_mem_concat (h.safe.notSent taskId hactive) (hown taskId hactive).symm
  · exact not_mem_concat (h.others taskId hactive) (hothers taskId hactive).symm

theorem Guarded.step (hlimit : 1 ≤ policy.maxCheckpointsPerTask) (h : Guarded policy manager s)
    (hok : OthersKeep policy s l) (hs : Step batchSize policy s l s') :
    Guarded policy manager s' := by
  cases hs with
  | @send cmd hroom =>
    refine h.enqueue (by simp) (fun taskId hactive heq => ?_) h.planned
    exact hok taskId hactive (Request.other.inj heq)
  | sendList hphase hroom => exact h.enqueue (by simp) (by simp) trivial
  | group hphase horder =>
    refine ⟨⟨h.safe.notSent, h.safe.found, h.safe.kept⟩, ?_, h.others⟩
    have hnodup := h.planned
    rw [hphase] at hnodup
    exact fun taskId hactive => not_mem_deletes hlimit hnodup hactive
  | @sendDelete other rest hphase hroom =>
    have hplanned := h.planned
    rw [hphase] at hplanned
    refine h.enqueue (fun taskId hactive heq => ?_) (by simp) fun taskId hactive hmem => ?_
    · obtain rfl := Request.ownDelete.inj heq
      exact hplanned other hactive List.mem_cons_self
    · exact hplanned taskId hactive (List.mem_cons_of_mem _ hmem)
  | cleanupReturns hphase =>
    exact ⟨⟨h.safe.notSent, h.safe.found, h.safe.kept⟩, trivial, h.others⟩
  | @receive choice request rest hqueue =>
    have hmoved : s.taken ++ s.queue = s.taken ++ [request] ++ rest := by simp [hqueue]
    -- no request in the channel deletes an active task
    have hkeeps : ∀ taskId ∈ policy.activeTaskIds, request ≠ .ownDelete taskId ∧
        request.command ≠ .delete taskId := by
      intro taskId hactive
      have hown : request ≠ .ownDelete taskId := by
        rintro rfl
        exact h.safe.notSent taskId hactive (by simp [hqueue])
      refine ⟨hown, fun hdelete => ?_⟩
      cases request with
      | other cmd =>
        obtain rfl : cmd = .delete taskId := hdelete
        exact h.others taskId hactive (by simp [hqueue])
      | ownList => cases hdelete
      | ownDelete other =>
        obtain rfl : other = taskId := CheckpointCommand.delete.inj hdelete
        exact hown rfl
    refine ⟨⟨fun taskId hactive => ?_, fun taskId hactive => ?_, fun taskId hactive hbefore => ?_⟩,
      ?_, fun taskId hactive hmem => ?_⟩
    · rw [← hmoved]
      exact h.safe.notSent taskId hactive
    · rw [found_handle (hkeeps taskId hactive).2, h.safe.found taskId hactive,
        lastSaved_others_concat (hkeeps taskId hactive).1]
    · rw [found_handle (hkeeps taskId hactive).2]
      exact isSome_write (hkeeps taskId hactive).2 (h.safe.kept taskId hactive hbefore)
    · exact h.planned.answer fun checkpoints hlisted => nodup_listed hlisted
    · exact h.others taskId hactive (hqueue ▸ List.mem_cons_of_mem _ hmem)
  | @tick choice =>
    refine ⟨⟨h.safe.notSent, fun taskId hactive => ?_, fun taskId hactive hbefore => ?_⟩, h.planned,
      h.others⟩
    · exact (found_flushPending choice.save s.manager taskId).trans (h.safe.found taskId hactive)
    · show ((flushPending choice.save s.manager).found taskId).isSome
      rw [found_flushPending]
      exact h.safe.kept taskId hactive hbefore

theorem Guarded.init (manager : ManagerState) : Guarded policy manager (start manager) where
  safe := ⟨fun _ _ => List.not_mem_nil, fun _ _ => rfl, fun _ _ h => h⟩
  planned := trivial
  others _ _ := List.not_mem_nil

theorem reachable_guarded (hlimit : 1 ≤ policy.maxCheckpointsPerTask)
    (h : ((machine batchSize policy manager).restrict (OthersKeep policy)).Reachable s) :
    Guarded policy manager s := by
  refine h.invariant (I := Guarded policy manager) ?_ ?_
  · rintro _ rfl
    exact Guarded.init manager
  · intro s l s' hguarded hs
    exact hguarded.step hlimit hs.1 hs.2

/-! ## The other tasks -/

/-- Requests among which the cleanup's list is not, and no `Save` of a task that is not active. -/
structure Settled (policy : RetentionPolicy) (queue : List Request) : Prop where
  noList : .ownList ∉ queue
  noSave : ∀ taskId ∉ policy.activeTaskIds, ∀ position, .other (.save taskId position) ∉ queue

/-- Every checkpoint of a task that is not active is among the `targets`, or its `Delete` is
sent. -/
structure Targeted (policy : RetentionPolicy) (targets : String → Prop) (queue : List Request)
    (m : ManagerState) : Prop where
  settled : Settled policy queue
  left : ∀ taskId ∉ policy.activeTaskIds, m.found taskId ≠ none →
    targets taskId ∨ .ownDelete taskId ∈ queue

/-- How the cleanup gets at every checkpoint of a task that is not active, by its phase. -/
def Covers (policy : RetentionPolicy) : Phase → List Request → ManagerState → Prop
  | .notCalled, queue, _ => .ownList ∉ queue
  | .waiting, queue, _ =>
    ∃ before after, queue = before ++ .ownList :: after ∧ .ownList ∉ before ∧ Settled policy after
  | .listed checkpoints, queue, m =>
    Targeted policy (fun taskId => ∃ cp ∈ checkpoints, cp.taskId = taskId) queue m
  | .deleting rest, queue, m => Targeted policy (· ∈ rest) queue m
  | .returned, queue, m => Targeted policy (fun _ => False) queue m

variable {queue rest : List Request} {request : Request} {m : ManagerState}
  {targets : String → Prop} {choice : ManagerChoice} {cmd : CheckpointCommand}

theorem Settled.nil : Settled policy [] := ⟨List.not_mem_nil, fun _ _ _ => List.not_mem_nil⟩

theorem Settled.concat (h : Settled policy queue) (hlist : request ≠ .ownList)
    (hsave : ∀ taskId ∉ policy.activeTaskIds, ∀ position,
      request ≠ .other (.save taskId position)) : Settled policy (queue ++ [request]) where
  noList := not_mem_concat h.noList hlist.symm
  noSave taskId hactive position :=
    not_mem_concat (h.noSave taskId hactive position) (hsave taskId hactive position).symm

theorem Settled.tail (h : Settled policy (request :: rest)) : Settled policy rest where
  noList := List.not_mem_of_not_mem_cons h.noList
  noSave taskId hactive position := List.not_mem_of_not_mem_cons (h.noSave taskId hactive position)

theorem Targeted.concat (h : Targeted policy targets queue m)
    (hsettled : Settled policy (queue ++ [request])) :
    Targeted policy targets (queue ++ [request]) m where
  settled := hsettled
  left taskId hactive hfound :=
    (h.left taskId hactive hfound).imp_right (List.mem_append_left _)

/-- What the manager still finds after a command that does not save the task it has found before,
and the command has not deleted it. -/
theorem found_of_receive (hworks : StorageWorks choice)
    (hsave : ∀ position, cmd ≠ .save taskId position)
    (hfound : (handle batchSize choice m (.command cmd)).2.found taskId ≠ none) :
    m.found taskId ≠ none ∧ cmd ≠ .delete taskId := by
  have hdelete : cmd ≠ .delete taskId := by
    rintro rfl
    exact hfound (found_handle_delete hworks.delete)
  refine ⟨?_, hdelete⟩
  rw [found_handle hdelete] at hfound
  cases habout : About taskId cmd with
  | false => rwa [write_other habout] at hfound
  | true =>
    obtain ⟨saved, rfl⟩ := (eq_of_about habout).resolve_right hdelete
    exact absurd rfl (hsave saved)

theorem Settled.send (h : Settled policy queue)
    (hsave : ∀ taskId ∉ policy.activeTaskIds, ∀ position, cmd ≠ .save taskId position) :
    Settled policy (queue ++ [.other cmd]) :=
  h.concat (by simp) fun taskId hactive position heq =>
    hsave taskId hactive position (Request.other.inj heq)

theorem Targeted.send (h : Targeted policy targets queue m)
    (hsave : ∀ taskId ∉ policy.activeTaskIds, ∀ position, cmd ≠ .save taskId position) :
    Targeted policy targets (queue ++ [.other cmd]) m :=
  h.concat (h.settled.send hsave)

theorem Targeted.receive (h : Targeted policy targets (request :: rest) m)
    (hworks : StorageWorks choice) :
    Targeted policy targets rest
      (handle batchSize choice m (.command request.command)).2 where
  settled := h.settled.tail
  left taskId hactive hfound := by
    have hsave : ∀ position, request.command ≠ .save taskId position := by
      intro position heq
      cases request with
      | other cmd =>
        obtain rfl : cmd = .save taskId position := heq
        exact h.settled.noSave taskId hactive position List.mem_cons_self
      | ownList => cases heq
      | ownDelete other => cases heq
    obtain ⟨hbefore, hdelete⟩ := found_of_receive hworks hsave hfound
    refine (h.left taskId hactive hbefore).imp_right fun hmem => ?_
    rcases List.mem_cons.mp hmem with rfl | hrest
    · exact absurd rfl hdelete
    · exact hrest

/-- The list has every task of which a `Load` would find a checkpoint. -/
theorem exists_mem_list (hfound : m.found taskId ≠ none) :
    ∃ cp ∈ addStored m.storage.list m.pending.list, cp.taskId = taskId := by
  rw [addStored_eq (nodup_taskIds m.storage)]
  cases hpending : m.pending.lookup taskId with
  | some cp =>
    obtain rfl := m.pending.keyed _ _ hpending
    exact ⟨cp, List.mem_append_left _ (m.pending.mem_list.mpr hpending), rfl⟩
  | none =>
    cases hstored : m.storage.lookup taskId with
    | none => exact absurd (ManagerState.found_eq_none.mpr ⟨hpending, hstored⟩) hfound
    | some cp =>
      obtain rfl := m.storage.keyed _ _ hstored
      refine ⟨cp, List.mem_append_right _ (List.mem_filter.mpr ⟨?_, ?_⟩), rfl⟩
      · exact m.storage.mem_list.mpr hstored
      · simp only [Bool.not_eq_true', List.any_eq_false, decide_eq_true_eq]
        intro cp' hcp' htask
        rw [← htask, m.pending.mem_list.mp hcp'] at hpending
        cases hpending

/-- The answer to the cleanup's `List`. -/
theorem Settled.listed (h : Settled policy rest) (hworks : StorageWorks choice) :
    Covers policy
      (Phase.waiting.answer .ownList (handle batchSize choice m (.command .list)).1) rest
      (handle batchSize choice m (.command .list)).2 := by
  simp only [handle, hworks.list]
  exact ⟨h, fun taskId _ hfound => .inl (exists_mem_list hfound)⟩

theorem Covers.receive {phase : Phase} (h : Covers policy phase (request :: rest) m)
    (hworks : StorageWorks choice) :
    Covers policy
      (phase.answer request (handle batchSize choice m (.command request.command)).1) rest
      (handle batchSize choice m (.command request.command)).2 := by
  -- only the answer to its own list command moves the cleanup on
  have hsame (hlist : request ≠ .ownList) (answer : ManagerAnswer) :
      phase.answer request answer = phase := by
    cases request with
    | other cmd => rfl
    | ownList => exact absurd rfl hlist
    | ownDelete taskId => rfl
  cases phase with
  | notCalled =>
    rw [hsame (List.ne_of_not_mem_cons h).symm]
    exact List.not_mem_of_not_mem_cons h
  | waiting =>
    obtain ⟨before, after, hqueue, hbefore, hafter⟩ := h
    cases before with
    | nil =>
      obtain ⟨rfl, rfl⟩ := List.cons.inj hqueue
      exact hafter.listed hworks
    | cons first before =>
      obtain ⟨rfl, rfl⟩ := List.cons.inj hqueue
      rw [hsame (List.ne_of_not_mem_cons hbefore).symm]
      exact ⟨before, after, rfl, List.not_mem_of_not_mem_cons hbefore, hafter⟩
  | listed checkpoints =>
    have htargeted : Targeted policy _ (request :: rest) m := h
    rw [hsame (List.ne_of_not_mem_cons htargeted.settled.noList).symm]
    exact htargeted.receive hworks
  | deleting taskIds =>
    have htargeted : Targeted policy _ (request :: rest) m := h
    rw [hsame (List.ne_of_not_mem_cons htargeted.settled.noList).symm]
    exact htargeted.receive hworks
  | returned =>
    have htargeted : Targeted policy _ (request :: rest) m := h
    rw [hsame (List.ne_of_not_mem_cons htargeted.settled.noList).symm]
    exact htargeted.receive hworks

/-- A command of another caller gets into the channel. -/
theorem Covers.send {phase : Phase} (h : Covers policy phase queue m)
    (hsave : phase = .notCalled ∨ ∀ taskId ∉ policy.activeTaskIds, ∀ position,
      cmd ≠ .save taskId position) : Covers policy phase (queue ++ [.other cmd]) m := by
  cases phase with
  | notCalled => exact not_mem_concat h (by simp)
  | waiting =>
    obtain ⟨before, after, rfl, hbefore, hafter⟩ := h
    exact ⟨before, after ++ [.other cmd], by simp, hbefore,
      hafter.send (hsave.resolve_left (by simp))⟩
  | listed checkpoints => exact Targeted.send h (hsave.resolve_left (by simp))
  | deleting taskIds => exact Targeted.send h (hsave.resolve_left (by simp))
  | returned => exact Targeted.send h (hsave.resolve_left (by simp))

theorem Covers.flush {phase : Phase} (h : Covers policy phase queue m) (reply : String → Reply) :
    Covers policy phase queue (flushPending reply m) := by
  have htargeted (targets : String → Prop) (h : Targeted policy targets queue m) :
      Targeted policy targets queue (flushPending reply m) := by
    refine ⟨h.settled, fun taskId hactive hfound => h.left taskId hactive ?_⟩
    rwa [found_flushPending] at hfound
  cases phase with
  | notCalled => exact h
  | waiting => exact h
  | listed checkpoints => exact htargeted _ h
  | deleting taskIds => exact htargeted _ h
  | returned => exact htargeted _ h

theorem Covers.step (h : Covers policy s.cleanup s.queue s.manager) (hok : Undisturbed policy s l)
    (hs : Step batchSize policy s l s') : Covers policy s'.cleanup s'.queue s'.manager := by
  cases hs with
  | @send cmd hroom =>
    refine h.send ?_
    cases cmd with
    | save taskId position =>
      -- a save of a task that is not active may come in only before the cleanup is called
      rcases hok with hactive | hphase
      · refine .inr fun other hother position' heq => hother ?_
        obtain ⟨rfl, rfl⟩ := CheckpointCommand.save.inj heq
        exact hactive
      · exact .inl hphase
    | load taskId => exact .inr (by simp)
    | delete taskId => exact .inr (by simp)
    | list => exact .inr (by simp)
    | flush => exact .inr (by simp)
  | sendList hphase hroom =>
    rw [hphase] at h
    exact ⟨s.queue, [], rfl, h, .nil⟩
  | group hphase horder =>
    rw [hphase] at h
    refine ⟨h.settled, fun taskId hactive hfound => ?_⟩
    exact (h.left taskId hactive hfound).imp_left (mem_deletes horder hactive)
  | @sendDelete taskId rest hphase hroom =>
    rw [hphase] at h
    refine ⟨h.settled.concat (by simp) (by simp), fun other hactive hfound => ?_⟩
    rcases h.left other hactive hfound with htarget | hsent
    · rcases List.mem_cons.mp htarget with rfl | hrest
      · exact .inr (List.mem_append_right _ List.mem_cons_self)
      · exact .inl hrest
    · exact .inr (List.mem_append_left _ hsent)
  | cleanupReturns hphase =>
    rw [hphase] at h
    exact ⟨h.settled, fun taskId hactive hfound =>
      (h.left taskId hactive hfound).imp_left List.not_mem_nil⟩
  | receive hqueue =>
    rw [hqueue] at h
    exact h.receive hok
  | tick => exact h.flush _

theorem reachable_covers
    (h : ((machine batchSize policy manager).restrict (Undisturbed policy)).Reachable s) :
    Covers policy s.cleanup s.queue s.manager := by
  refine h.invariant (I := fun s => Covers policy s.cleanup s.queue s.manager) ?_ ?_
  · rintro _ rfl
    exact List.not_mem_nil
  · intro s l s' hcovers hs
    exact hcovers.step hs.1 hs.2

/-- A task that is not active has no checkpoint in the buffer or in the storage. -/
def Cleared (policy : RetentionPolicy) (s : State) : Prop :=
  ∀ taskId ∉ policy.activeTaskIds,
    s.manager.pending.lookup taskId = none ∧ s.manager.storage.lookup taskId = none

/-- **The cleanup is safe and complete.** In every run in which nobody else deletes an active task's
checkpoint, it takes nothing from an active task. In every run in which the storage works and nobody
saves another task once it has begun, it leaves no checkpoint of another task: when it has returned,
and the manager has taken what it has sent. -/
theorem cleanup_safe_and_complete (batchSize : Nat) (policy : RetentionPolicy)
    (hlimit : 1 ≤ policy.maxCheckpointsPerTask) (manager : ManagerState) (s : State) :
    (((machine batchSize policy manager).restrict (OthersKeep policy)).Reachable s →
      Safe policy manager s) ∧
    (((machine batchSize policy manager).restrict (Undisturbed policy)).Reachable s →
      s.cleanup = .returned → (∀ taskId, .ownDelete taskId ∉ s.queue) → Cleared policy s) := by
  refine ⟨fun h => (reachable_guarded hlimit h).safe, fun h hreturned hqueue taskId hactive => ?_⟩
  have hcovers := reachable_covers h
  rw [hreturned] at hcovers
  rw [← ManagerState.found_eq_none]
  by_contra hfound
  rcases hcovers.left taskId hactive hfound with hfalse | hsent
  · exact hfalse
  · exact hqueue taskId hsent

/-! ### Two tasks, of which one is not active -/

/-- Surroundings in which everything succeeds. -/
def smooth : ManagerChoice := ⟨"c2", 2, fun _ => .succeeds, .succeeds, .succeeds, .succeeds⟩

theorem storageWorks_smooth : StorageWorks smooth := ⟨fun _ => rfl, rfl, rfl, rfl⟩

def booksPolicy : RetentionPolicy := ⟨["books"], 1⟩

def ordersCheckpoint : Checkpoint := ⟨"c1", "orders", .postgreSQL "0/8", 1, .null⟩

theorem keysOf_orders : KeysOf [ordersCheckpoint] ["orders"] :=
  ⟨List.nodup_singleton _, fun taskId => by simp [ordersCheckpoint, eq_comm]⟩

theorem deletes_orders : deletes booksPolicy [ordersCheckpoint] ["orders"] = ["orders"] := by
  simp [deletes, orphanDeletes, trimDeletes, byTask, newestFirst, booksPolicy, ordersCheckpoint]

/-- The storage has a checkpoint of `orders`. While the cleanup runs, `books` is saved. -/
theorem cleanup_safe_and_complete_books : ∃ s,
    Safe booksPolicy ⟨.empty, .save .empty ordersCheckpoint⟩ s ∧ Cleared booksPolicy s ∧
      s.manager.found "books" = some (.postgreSQL "0/10") := by
  let restricted := (machine 100 booksPolicy ⟨.empty, .save .empty ordersCheckpoint⟩).restrict
    fun s l => OthersKeep booksPolicy s l ∧ Undisturbed booksPolicy s l
  have h₀ : restricted.Reachable (start ⟨.empty, .save .empty ordersCheckpoint⟩) := .init rfl
  have h₁ := h₀.step (l := Label.sendList) ⟨⟨trivial, trivial⟩, .sendList rfl (by decide)⟩
  have h₂ := h₁.step (l := Label.send (.save "books" (.postgreSQL "0/10")))
    ⟨⟨by simp [OthersKeep], .inl List.mem_cons_self⟩, .send (by decide)⟩
  have h₃ := h₂.step (l := Label.receive smooth)
    ⟨⟨trivial, storageWorks_smooth⟩, .receive rfl⟩
  have h₄ := h₃.step (l := Label.group ["orders"])
    ⟨⟨trivial, trivial⟩, .group rfl keysOf_orders⟩
  have h₅ := h₄.step (l := Label.sendDelete)
    ⟨⟨trivial, trivial⟩, .sendDelete (congrArg Phase.deleting deletes_orders) (by decide)⟩
  have h₆ := h₅.step (l := Label.cleanupReturns) ⟨⟨trivial, trivial⟩, .cleanupReturns rfl⟩
  have h₇ := h₆.step (l := Label.receive smooth)
    ⟨⟨trivial, storageWorks_smooth⟩, .receive rfl⟩
  have h₈ := h₇.step (l := Label.receive smooth)
    ⟨⟨trivial, storageWorks_smooth⟩, .receive rfl⟩
  have hboth (s : State) := cleanup_safe_and_complete 100 booksPolicy (le_refl 1)
    ⟨.empty, .save .empty ordersCheckpoint⟩ s
  refine ⟨_, (hboth _).1 (h₈.mono fun _ _ hok => hok.1), ?_, ?_⟩
  · exact (hboth _).2 (h₈.mono fun _ _ hok => hok.2) rfl fun _ => List.not_mem_nil
  · rfl

end CheckpointCleanup

end MeiliBridge
