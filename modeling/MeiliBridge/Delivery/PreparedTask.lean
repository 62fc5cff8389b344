import MeiliBridge.Delivery.StoresAgree

/-!
# The task that a prepared checkpoint is filed under

`TransactionCoordinator::begin` puts the task id in front of the transaction id, and `prepare` reads
it back: it takes what stands before the first hyphen. A task id without a hyphen comes back as it
is; of any other one, such as the UUID that is the default, only the first part does, and the
checkpoint is stored under that part (`prepared_under_task_iff`).
-/

set_option autoImplicit false

namespace MeiliBridge

open Interaction
open TransactionalCheckpoint (find find_eq ofId_append_self any_eq_false wp_op)

namespace TransactionCoordinator

/-! ## The task id in a transaction id -/

/-- What `prepare` takes a transaction id to say is never a task id with a hyphen. -/
theorem hyphen_not_mem_taskIdOf (transactionId : String) :
    '-' ∉ (taskIdOf transactionId).toList := by
  rw [taskIdOf]
  cases h : (Text.split '-' transactionId).head? with
  | none => simp
  | some part => exact Text.not_mem_of_mem_split (List.mem_of_mem_head? h)

theorem taskIdOf_begin {taskId : String} (h : '-' ∉ taskId.toList) (uuid : String) :
    taskIdOf s!"{taskId}-{uuid}" = taskId := by
  have hsplit : ((s!"{taskId}-{uuid}".toList).splitOn '-').head? = some taskId.toList := by
    have happend : s!"{taskId}-{uuid}".toList = taskId.toList ++ '-' :: uuid.toList := by
      simp only [String.toList_append, List.append_assoc]
      rfl
    rw [happend, List.splitOn_append_cons_self_of_not_mem h, List.head?_cons]
  rw [taskIdOf, Text.split, List.head?_map, hsplit]
  simp

/-- **The task id survives the round trip through a transaction id exactly when it has no
hyphen.** -/
theorem taskIdOf_begin_iff {taskId uuid : String} :
    taskIdOf s!"{taskId}-{uuid}" = taskId ↔ '-' ∉ taskId.toList := by
  constructor
  · intro h
    have hno := hyphen_not_mem_taskIdOf s!"{taskId}-{uuid}"
    rwa [h] at hno
  · intro h
    exact taskIdOf_begin h uuid

/-! ## The two calls -/

/-- A call of `prepare`: the half of the checkpoint handler, and that of `TwoPhaseCommit` only if
the handler answers `true`. -/
inductive Prepare (P : Choice → Prop) (transactionId : String) (position : Position) (w : World) :
    Except Fault Bool → World → Prop
  | refused {r : Except Fault Bool} {w' : World} (hr : r ≠ .ok true)
      (h : Runs World.handler P (prepareCheckpoint transactionId position w.checkpointHandler) w r
        w') :
      Prepare P transactionId position w r w'
  | accepted {w' : World} {r : Result Bool} {t : TwoPhaseCommit}
      (h : Runs World.handler P (prepareCheckpoint transactionId position w.checkpointHandler) w
        (.ok true) w')
      (ht : w'.twoPhaseCommit.prepare transactionId position = (r, t)) :
      Prepare P transactionId position w r.toFault { w' with twoPhaseCommit := t }

/-- `begin`, and `prepare` with the transaction id that it returns. -/
inductive BeginPrepare (P : Choice → Prop) (taskId : String) (position : Position) (w : World) :
    Except Fault Bool → World → Prop
  | notBegun {e : Fault} {w' : World}
      (h : Runs World.handler P (beginTransaction taskId) w (.error e) w') :
      BeginPrepare P taskId position w (.error e) w'
  | begun {transactionId : String} {r : Except Fault Bool} {w₁ w₂ : World}
      (h : Runs World.handler P (beginTransaction taskId) w (.ok transactionId) w₁)
      (hprepare : Prepare P transactionId position w₁ r w₂) :
      BeginPrepare P taskId position w r w₂

/-- The storage does what it is asked, and an identifier is one that `w` has not seen. -/
structure Working (w : World) (taskId : String) (c : Choice) : Prop where
  storage : ∀ other, c.storage other = .succeeds
  transactions : ∀ txn ∈ w.transactions, txn.transactionId ≠ s!"{taskId}-{c.uuid}"
  twoPhaseCommit : s!"{taskId}-{c.uuid}" ∉ w.twoPhaseCommit.transactions
  checkpoints : ∀ other cp, w.storage.lookup other = some cp → cp.id ≠ c.uuid

/-- The call has succeeded, the task finds the position, and no other task sees a change. -/
structure FiledUnder (taskId : String) (position : Position) (w : World) (r : Except Fault Bool)
    (w' : World) : Prop where
  answer : r = .ok true
  own : (w'.storage.lookup taskId).map (·.position) = some position
  others : ∀ other, other ≠ taskId → w'.storage.lookup other = w.storage.lookup other

variable {w : World} {taskId : String}

/-- What `begin` leaves, under a transaction id that is new. -/
structure Begun (w : World) (taskId transactionId : String) (w₁ : World) : Prop where
  encodes : ∃ uuid : String, transactionId = s!"{taskId}-{uuid}"
  storage : w₁.storage = w.storage
  handler : w₁.checkpointHandler = w.checkpointHandler
  fresh : w₁.transactions.any (·.transactionId = transactionId) = false
  started : ∃ txn, w₁.twoPhaseCommit.transactions.lookup transactionId = some txn ∧
    txn.state = .started

theorem wp_beginTransaction :
    wp World.handler (Working w taskId) (fun _ => True) (beginTransaction taskId)
      (fun r w₁ => ∃ transactionId, r = .ok transactionId ∧ Begun w taskId transactionId w₁) w := by
  refine wp_bind.mpr (wp_op fun c hc => ?_)
  refine wp_bind.mpr (wp_op fun c' _ => ?_)
  refine wp_bind.mpr (wp_bind.mpr (wp_op fun c'' _ => ?_))
  simp only [World.exec]
  have hfree := AList.lookup_eq_none.mpr hc.twoPhaseCommit
  rw [(w.twoPhaseCommit.beginTransaction_ok _ _ _).mpr hfree]
  refine ⟨trivial, trivial, _, rfl, ⟨c.uuid, rfl⟩, rfl, rfl, ?_, ?_⟩
  · rw [List.any_eq_false]
    intro txn htxn
    simpa using hc.transactions txn htxn
  · rw [TwoPhaseCommit.lookup_beginTransaction, if_pos ⟨rfl, hfree⟩]
    exact ⟨_, rfl, rfl⟩

/-- What the handler's half of `prepare` leaves: one record more, under the task that it reads off
the transaction id. -/
structure Stored (w₁ : World) (transactionId : String) (position : Position) (cp : Checkpoint)
    (w₂ : World) : Prop where
  task : cp.taskId = taskIdOf transactionId
  position : cp.position = position
  storage : w₂.storage = w₁.storage.insert cp.taskId cp
  twoPhaseCommit : w₂.twoPhaseCommit = w₁.twoPhaseCommit

theorem wp_prepareCheckpoint {transactionId : String} {w₁ : World} (position : Position)
    (hfresh : w₁.transactions.any (·.transactionId = transactionId) = false) :
    wp World.handler (Working w taskId) (fun _ => True)
      (prepareCheckpoint transactionId position true)
      (fun r w₂ => r = .ok true ∧ ∃ cp c, Working w taskId c ∧ cp.id = c.uuid ∧
        Stored w₁ transactionId position cp w₂) w₁ := by
  refine wp_bind.mpr (wp_bind.mpr (wp_op fun c _ => ?_))
  simp only [World.exec, hfresh, Bool.false_eq_true, if_false]
  refine wp_bind.mpr (wp_op fun c₁ _ => wp_op fun c₂ _ => ?_)
  refine wp_bind.mpr (wp_attempt.mpr (wp_bind.mpr (wp_op fun c₃ _ => ?_)))
  have hfind : find (w₁.transactions ++
      [⟨transactionId, taskIdOf transactionId, position, false, false, c₁.now⟩]) transactionId =
      some ⟨transactionId, taskIdOf transactionId, position, false, false, c₁.now⟩ := by
    rw [find_eq, ofId_append_self, any_eq_false.mp hfresh]
    rfl
  simp only [World.exec, hfind, Bool.false_eq_true, if_false]
  refine wp_bind.mpr (wp_op fun c₄ hc₄ => ?_)
  refine wp_bind.mpr (wp_op fun c₅ _ => ?_)
  refine wp_bind.mpr (wp_op fun c₆ hc₆ => ?_)
  simp only [World.exec, hc₆.storage, Reply.call]
  exact wp_bind.mpr (wp_op fun c₇ _ =>
    ⟨trivial, ⟨trivial, rfl, _, c₄, hc₄, rfl, rfl, rfl, rfl, rfl⟩⟩)

variable {position : Position} {r : Except Fault Bool} {w' : World}

theorem Prepare.stored {transactionId : String} {w₁ : World}
    (hbegun : Begun w taskId transactionId w₁)
    (hhandler : w.checkpointHandler = true)
    (h : Prepare (Working w taskId) transactionId position w₁ r w') :
    r = .ok true ∧ ∃ (cp : Checkpoint) (c : Choice), Working w taskId c ∧ cp.id = c.uuid ∧
      cp.taskId = taskIdOf transactionId ∧ cp.position = position ∧
      w'.storage = w.storage.insert cp.taskId cp := by
  have hset : w₁.checkpointHandler = true := hbegun.handler.trans hhandler
  have hruns := (wp_iff.mp
    (@wp_prepareCheckpoint w taskId transactionId w₁ position hbegun.fresh)).2
  cases h with
  | refused hr h =>
    rw [hset] at h
    exact absurd (hruns _ _ h).1 hr
  | @accepted w₂ r t h ht =>
    rw [hset] at h
    obtain ⟨-, cp, c, hc, hid, hstored⟩ := hruns _ _ h
    obtain ⟨txn, hlookup, hstate⟩ := hbegun.started
    have hprepare := congrArg Prod.fst ht
    rw [hstored.twoPhaseCommit, TwoPhaseCommit.prepare, hlookup] at hprepare
    simp only [hstate, ne_eq, not_true_eq_false, if_false] at hprepare
    refine ⟨by rw [← hprepare]; rfl, cp, c, hc, hid, hstored.task, hstored.position, ?_⟩
    rw [← hbegun.storage]
    exact hstored.storage

/-- **Both calls succeed, and store one record with the position**: under the task id that `prepare`
reads off the transaction id. -/
theorem BeginPrepare.stored (hhandler : w.checkpointHandler = true)
    (h : BeginPrepare (Working w taskId) taskId position w r w') :
    r = .ok true ∧ ∃ (uuid : String) (cp : Checkpoint) (c : Choice), Working w taskId c ∧
      cp.id = c.uuid ∧
      cp.taskId = taskIdOf s!"{taskId}-{uuid}" ∧ cp.position = position ∧
      w'.storage = w.storage.insert cp.taskId cp := by
  have hruns := (wp_iff.mp (@wp_beginTransaction w taskId)).2
  cases h with
  | notBegun h =>
    obtain ⟨transactionId, hr, -⟩ := hruns _ _ h
    cases hr
  | begun h hprepare =>
    obtain ⟨transactionId, hr, hbegun⟩ := hruns _ _ h
    cases hr
    obtain ⟨uuid, rfl⟩ := hbegun.encodes
    obtain ⟨hr, cp, c, hc, hid, hstored⟩ := hprepare.stored hbegun hhandler
    exact ⟨hr, uuid, cp, c, hc, hid, hstored⟩

theorem BeginPrepare.no_hyphen (hhandler : w.checkpointHandler = true)
    (h : BeginPrepare (Working w taskId) taskId position w r w')
    (hfiled : FiledUnder taskId position w r w') : '-' ∉ taskId.toList := by
  obtain ⟨-, uuid, cp, c, hc, hid, htask, -, hstorage⟩ := h.stored hhandler
  have hown : cp.taskId = taskId := by
    by_contra hne
    have hother := hfiled.others cp.taskId hne
    rw [hstorage, AList.lookup_insert] at hother
    exact hc.checkpoints _ _ hother.symm hid
  exact taskIdOf_begin_iff.mp (htask.symm.trans hown)

theorem BeginPrepare.filed (hhandler : w.checkpointHandler = true)
    (h : BeginPrepare (Working w taskId) taskId position w r w') (hno : '-' ∉ taskId.toList) :
    FiledUnder taskId position w r w' := by
  obtain ⟨hr, uuid, cp, c, -, -, htask, hposition, hstorage⟩ := h.stored hhandler
  have hown : cp.taskId = taskId := htask.trans (taskIdOf_begin hno uuid)
  refine ⟨hr, ?_, fun other hne => ?_⟩
  · rw [hstorage, hown, AList.lookup_insert]
    exact congrArg some hposition
  · rw [hstorage, hown, AList.lookup_insert_ne hne]

/-- **A coordinated prepare files the checkpoint under its own task exactly when the task id has no
hyphen.** -/
theorem prepared_under_task_iff (hhandler : w.checkpointHandler = true)
    (h : BeginPrepare (Working w taskId) taskId position w r w') :
    FiledUnder taskId position w r w' ↔ '-' ∉ taskId.toList :=
  ⟨h.no_hyphen hhandler, h.filed hhandler⟩

/-! ## A task whose id has none, and the default one -/

/-- The two calls have a run. -/
theorem exists_beginPrepare {c : Choice} (hc : Working w taskId c) (position : Position) :
    ∃ r w', BeginPrepare (Working w taskId) taskId position w r w' := by
  have hbegin := runs_eval (h := World.handler) hc (beginTransaction taskId) w
  obtain ⟨transactionId, hr, -⟩ := (wp_iff.mp (@wp_beginTransaction w taskId)).2 _ _ hbegin
  rw [hr] at hbegin
  set w₁ := (eval World.handler c (beginTransaction taskId) w).2
  have hprepare := runs_eval (h := World.handler) hc
    (prepareCheckpoint transactionId position w₁.checkpointHandler) w₁
  by_cases hok : (eval World.handler c
      (prepareCheckpoint transactionId position w₁.checkpointHandler) w₁).1 = .ok true
  · rw [hok] at hprepare
    exact ⟨_, _, .begun hbegin (.accepted hprepare rfl)⟩
  · exact ⟨_, _, .begun hbegin (.refused hok hprepare)⟩

theorem working_start (taskId : String) : Working start.world taskId choice where
  storage _ := rfl
  transactions _ h := by cases h
  twoPhaseCommit h := by cases h
  checkpoints _ _ h := by cases h

/-- The checkpoint of the task `books` is found under `books`. -/
theorem prepared_under_task_books :
    ∃ r w', BeginPrepare (Working start.world "books") "books" (.postgreSQL "0/10")
      start.world r w' ∧
      FiledUnder "books" (.postgreSQL "0/10") start.world r w' := by
  obtain ⟨r, w', h⟩ := exists_beginPrepare (working_start "books") (.postgreSQL "0/10")
  exact ⟨r, w', h, (prepared_under_task_iff rfl h).mpr (by simp)⟩

/-- An id as the configuration makes them. -/
def defaultId : String := "f47ac10b-58cc-4372-a567-0e02b2c3d479"

/-- A task with a default id does not find the checkpoint that was prepared for it. -/
theorem default_id_not_filed :
    ¬ ∀ (w : World) (taskId : String) (position : Position) (r : Except Fault Bool) (w' : World),
      w.checkpointHandler = true → BeginPrepare (Working w taskId) taskId position w r w' →
        FiledUnder taskId position w r w' := by
  intro hall
  obtain ⟨r, w', h⟩ := exists_beginPrepare (working_start defaultId) (.postgreSQL "0/10")
  refine h.no_hyphen rfl (hall _ _ _ _ _ rfl h) ?_
  simp [defaultId]

end TransactionCoordinator

end MeiliBridge
