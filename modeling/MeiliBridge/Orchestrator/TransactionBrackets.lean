import MeiliBridge.Orchestrator.AtLeastOnce

/-!
# What a call of the at-least-once path leaves open

A call begins a transaction in `TwoPhaseCommit` (with two-phase commit) and in
`TransactionalCheckpoint`, and should close both on every path on which it returns. The paths on
which the destination has answered with a failure do. Those on which all events are duplicates, or
on which the commit fails, close nothing; and with two-phase commit every commit fails, since nobody
has prepared the transaction there. `bracketed_iff` is the exact condition.

The environment may answer each operation in its own way. `Outcomes` fixes what decides the path:
the answers of the storage to the saves and the load of a call, and that of the destination.
-/

set_option autoImplicit false

namespace MeiliBridge

open Interaction TransactionalCheckpoint PipelineOrchestrator

/-- Operations in an environment that decides for each operation by itself. -/
def World.answering : Handler Op Op.Ans (Op → Choice) World where
  exec o c w := w.exec (c o) o

namespace TransactionBrackets

/-- What the storage and the destination do in one call. -/
structure Outcomes where
  /-- the answer to the save of `prepare` -/
  prepare : Reply
  /-- the answer to the load of `commit` -/
  load : Reply
  /-- the answer to the save of `commit` -/
  commit : Reply
  answer : Answer

/-- The environment decides as in `out`, and in any way about everything else. -/
structure Outcomes.Of (out : Outcomes) (c : Op → Choice) : Prop where
  prepare : ∀ cp, cp.committed = some false →
    (c (.saveCheckpoint cp)).storage cp.taskId = out.prepare
  load : ∀ taskId, (c (.loadCheckpoint taskId)).storage taskId = out.load
  commit : ∀ cp, cp.committed = some true →
    (c (.saveCheckpoint cp)).storage cp.taskId = out.commit
  answer : ∀ events, ((c (.processEvents events)).delivery events).answer = out.answer

/-- Started or prepared -/
def Pending (txn : TwoPhaseTransaction) : Prop := txn.state = .started ∨ txn.state = .prepared

/-- What is open in one of the two stores after the call was open there before it. -/
structure Bracketed (w w' : World) : Prop where
  twoPhaseCommit : ∀ id txn, w'.twoPhaseCommit.transactions.lookup id = some txn → Pending txn →
    w.twoPhaseCommit.transactions.lookup id = some txn
  transactions : ∀ txn ∈ w'.transactions, txn ∈ w.transactions

/-! ## The condition -/

/-- The id is that of an active transaction of `TransactionalCheckpoint`. -/
def Listed (id : String) (txns : Txns) : Prop := txns.any (·.transactionId = id) = true

/-- `is_duplicate`, for the key of an event -/
def Duplicate (cfg : AtLeastOnceConfig) (w : World) (e : Event) : Prop :=
  cfg.enabled = true ∧ w.deduplicator.contains (createDedupKeyFromEvent e) = true

/-- With two-phase commit a call closes what it begins if the destination fails, or the save of
`prepare` does and the coordinator has a handler for checkpoints. -/
def ClosesTwoPhase (cfg : AtLeastOnceConfig) (batch : List Event) (out : Outcomes) (id : String)
    (w : World) : Prop :=
  id ∈ w.twoPhaseCommit.transactions ∨
    ¬ Listed id w.transactions ∧ (∃ e ∈ batch, ¬ Duplicate cfg w e) ∧
      (if out.prepare = .succeeds then ¬ Answer.Clean out.answer else w.checkpointHandler = true)

/-- Without it the transaction has the empty id, and a call closes it if the save of `prepare`
succeeds, and the commit does too where the destination has taken everything. -/
def ClosesCheckpoint (cfg : AtLeastOnceConfig) (batch : List Event) (out : Outcomes) (w : World) :
    Prop :=
  Listed "" w.transactions ∨
    (∃ e ∈ batch, ¬ Duplicate cfg w e) ∧ out.prepare = .succeeds ∧
      (Answer.Clean out.answer → out.load = .succeeds ∧ out.commit = .succeeds)

/-- The position of the batch. -/
def batchPosition (batch : List Event) : Option Position :=
  batch.getLast?.bind extractPositionFromEvent

/-- A call closes what it begins, where `uuid` is the identifier that it draws first. -/
def Closes (cfg : AtLeastOnceConfig) (task : TaskParams) (batch : List Event) (out : Outcomes)
    (uuid : String) (w : World) : Prop :=
  batchPosition batch = none ∨
    if cfg.twoPhaseCommit then ClosesTwoPhase cfg batch out s!"{task.taskId}-{uuid}" w
    else ClosesCheckpoint cfg batch out w

/-! ## The books -/

/-- The two stores, and whether the coordinator has a handler. -/
structure Books (txns : Txns) (t : TwoPhaseCommit) (handler : Bool) (w : World) : Prop where
  transactions : w.transactions = txns
  twoPhaseCommit : w.twoPhaseCommit = t
  handler : w.checkpointHandler = handler

theorem Books.refl (w : World) : Books w.transactions w.twoPhaseCommit w.checkpointHandler w :=
  ⟨rfl, rfl, rfl⟩

/-- The operations that leave the books alone. -/
def Quiet : Op → Prop
  | .setTransactions _ | .twoPhaseBegin _ _ _ | .twoPhaseCommit _ | .twoPhaseAbort _ => False
  | _ => True

variable {txns : Txns} {t : TwoPhaseCommit} {handler : Bool} {w : World}

theorem Books.call {w' : World} (h : Books txns t handler w) (h' : Books txns t handler w')
    (reply : Reply) : Books txns t handler (reply.call w w').2 := by
  rw [Reply.call_snd]
  split
  · exact h'
  · exact h

theorem Books.exec (h : Books txns t handler w) {o : Op} (ho : Quiet o) (c : Choice) :
    Books txns t handler (w.exec c o).2 := by
  have hsame {w' : World} (htxns : w'.transactions = w.transactions)
      (ht : w'.twoPhaseCommit = w.twoPhaseCommit)
      (hhandler : w'.checkpointHandler = w.checkpointHandler) : Books txns t handler w' :=
    ⟨htxns.trans h.transactions, ht.trans h.twoPhaseCommit, hhandler.trans h.handler⟩
  cases o with
  | setTransactions | twoPhaseBegin | twoPhaseCommit | twoPhaseAbort => exact ho.elim
  | loadCheckpoint taskId =>
    simp only [World.exec]
    split <;> exact h
  | saveCheckpoint cp =>
    refine h.call ?_ _
    exact hsame rfl rfl rfl
  | deleteCheckpoint taskId =>
    refine h.call ?_ _
    exact hsame rfl rfl rfl
  | storeDeadLetter entry source =>
    refine h.call ?_ _
    exact hsame rfl rfl rfl
  | _ => exact hsame rfl rfl rfl

variable {P : (Op → Choice) → Prop} {out : Outcomes}

theorem wp_quiet {α : Type} {p : TaskProg α} (hp : p.Only Quiet) (h : Books txns t handler w) :
    wp World.answering P (fun _ => True) p (fun _ => Books txns t handler) w := by
  have hkeep := wp_only (h := World.answering) (P := P) (I := Books txns t handler)
    (fun o c v ho _ hv => hv.exec ho (c o)) hp h
  exact hkeep.mono (fun _ _ => trivial) fun _ _ hv _ => hv

theorem wp_op {o : Op} {Q : Except Fault o.Ans → World → Prop}
    (h : ∀ c, P c → Q (.ok (w.exec (c o) o).1) (w.exec (c o) o).2) :
    wp World.answering P (fun _ => True) (.perform o) Q w :=
  ⟨trivial, fun c hc => ⟨trivial, h c hc⟩⟩

/-! ## The methods of `TransactionalCheckpoint` -/

variable {id taskId : String} {position : Position} {txn : CheckpointTransaction}

theorem not_listed : ¬ Listed id txns ↔ ofId txns id = [] := by
  rw [Listed, Bool.not_eq_true, any_eq_false]

theorem find_last (hfree : ¬ Listed id txns) (hid : txn.transactionId = id) :
    find (txns ++ [txn]) id = some txn := by
  obtain rfl := hid
  rw [find_eq, ofId_append_self, not_listed.mp hfree]
  rfl

theorem find_free (hfree : ¬ Listed id txns) : find txns id = none := by
  rw [find_eq, not_listed.mp hfree]
  rfl

theorem remove_last (hfree : ¬ Listed id txns) (hid : txn.transactionId = id) :
    remove (txns ++ [txn]) id = txns := by
  have hnone : ∀ other ∈ txns, ¬ (decide (other.transactionId = id) = true) := by
    simpa [Listed] using hfree
  rw [remove, List.eraseP_append_right _ hnone]
  simp [hid]

theorem markPrepared_last (hfree : ¬ Listed id txns) (hid : txn.transactionId = id) :
    markPrepared id (txns ++ [txn]) = txns ++ [{ txn with prepared := true }] := by
  induction txns with
  | nil => simp [markPrepared, hid]
  | cons other rest ih =>
    have hother : ¬ other.transactionId = id := by
      intro heq
      exact hfree (by simp [Listed, heq])
    have hrest : ¬ Listed id rest := by
      intro hlisted
      refine hfree ?_
      rw [Listed, List.any_cons, show rest.any _ = true from hlisted, Bool.or_true]
    rw [List.cons_append, markPrepared, if_neg hother, ih hrest]
    rfl

theorem wp_begin (hfree : ¬ Listed id txns) (h : Books txns t handler w) :
    wp World.answering P (fun _ => True)
      (TransactionalCheckpoint.beginTransaction id taskId position)
      (fun r v => r = .ok () ∧ v.deduplicator = w.deduplicator ∧
        ∃ now, Books (txns ++ [⟨id, taskId, position, false, false, now⟩]) t handler v) w := by
  refine wp_bind.mpr (wp_op fun c _ => ?_)
  rw [Listed, Bool.not_eq_true] at hfree
  simp only [World.exec, h.transactions, hfree, Bool.false_eq_true, if_false]
  refine wp_bind.mpr (wp_op fun c' _ => wp_op fun c'' _ => ⟨rfl, rfl, (c' .clock).now, ?_⟩)
  exact ⟨rfl, h.twoPhaseCommit, h.handler⟩

theorem wp_begin_listed (hlisted : Listed id txns) (h : Books txns t handler w) :
    wp World.answering P (fun _ => True)
      (TransactionalCheckpoint.beginTransaction id taskId position)
      (fun r v => (∀ a, r ≠ .ok a) ∧ Books txns t handler v) w := by
  refine wp_bind.mpr (wp_op fun c _ => ?_)
  rw [Listed] at hlisted
  simp only [World.exec, h.transactions, hlisted, if_true]
  refine ⟨trivial, ?_, h⟩
  intro a ha
  cases ha

/-- A transaction that a call has begun, behind the others. -/
structure Begun (txns : Txns) (id : String) (txn : CheckpointTransaction) : Prop where
  fresh : ¬ Listed id txns
  id : txn.transactionId = id
  prepared : txn.prepared = false
  committed : txn.committed = false

/-- The same transaction once it is prepared, with its record in the storage. -/
structure Prepared (txns : Txns) (id : String) (txn : CheckpointTransaction) (w : World) :
    Prop where
  fresh : ¬ Listed id txns
  id : txn.transactionId = id
  prepared : txn.prepared = true
  committed : txn.committed = false
  stored : ∃ cp, w.storage.lookup txn.taskId = some cp

theorem wp_prepare (hbegun : Begun txns id txn) (h : Books (txns ++ [txn]) t handler w) :
    wp World.answering out.Of (fun _ => True) (TransactionalCheckpoint.prepare id)
      (fun r v =>
        out.prepare = .succeeds ∧ r = .ok true ∧
          (∃ txn', Prepared txns id txn' v ∧ Books (txns ++ [txn']) t handler v) ∨
        out.prepare ≠ .succeeds ∧ r = .ok false ∧ Books (txns ++ [txn]) t handler v) w := by
  refine wp_bind.mpr (wp_op fun c _ => ?_)
  simp only [World.exec, h.transactions, find_last hbegun.fresh hbegun.id, hbegun.prepared,
    Bool.false_eq_true, if_false]
  refine wp_bind.mpr (wp_op fun c₁ _ => ?_)
  refine wp_bind.mpr (wp_op fun c₂ _ => ?_)
  refine wp_bind.mpr (wp_op fun c₃ hc₃ => ?_)
  have hreply := hc₃.prepare (preparedCheckpoint txn id (c₁ .newUuid).uuid (c₂ .clock).now) rfl
  simp only [World.exec, hreply]
  cases hprepare : out.prepare with
  | succeeds =>
    refine wp_bind.mpr (wp_op fun c₄ _ =>
      ⟨trivial, .inl ⟨rfl, rfl, { txn with prepared := true }, ?_⟩⟩)
    refine ⟨⟨hbegun.fresh, hbegun.id, rfl, hbegun.committed, _, AList.lookup_insert _⟩, ?_⟩
    exact ⟨markPrepared_last hbegun.fresh hbegun.id, h.twoPhaseCommit, h.handler⟩
  | fails e applied =>
    refine ⟨trivial, .inr ⟨by simp, rfl, ?_⟩⟩
    refine h.call ?_ _
    exact ⟨h.transactions, h.twoPhaseCommit, h.handler⟩

theorem wp_discardPrepared (txn : CheckpointTransaction) (h : Books txns t handler w) :
    wp World.answering P (fun _ => True) (discardPrepared txn)
      (fun r v => r = .ok () ∧ Books txns t handler v) w := by
  unfold discardPrepared
  split
  · refine wp_bind.mpr (wp_op fun c _ => ⟨trivial, rfl, ?_⟩)
    exact h.exec (o := .deleteCheckpoint txn.taskId) trivial (c _)
  · exact ⟨trivial, rfl, h⟩

theorem wp_rollback (hfree : ¬ Listed id txns) (hid : txn.transactionId = id)
    (h : Books (txns ++ [txn]) t handler w) :
    wp World.answering P (fun _ => True) (TransactionalCheckpoint.rollback id)
      (fun r v => r = .ok () ∧ Books txns t handler v) w := by
  refine wp_bind.mpr (wp_op fun c _ => ?_)
  simp only [World.exec, h.transactions, find_last hfree hid, remove_last hfree hid]
  refine wp.bind (wp_discardPrepared txn h) ?_ ?_
  · intro _ v _ hv
    exact wp_op fun c' _ => ⟨rfl, rfl, hv.2.twoPhaseCommit, hv.2.handler⟩
  · intro e v _ hv
    cases hv.1

theorem wp_rollback_gone (hfree : ¬ Listed id txns) (h : Books txns t handler w) :
    wp World.answering P (fun _ => True) (TransactionalCheckpoint.rollback id)
      (fun _ v => Books txns t handler v) w := by
  refine wp_bind.mpr (wp_op fun c _ => ?_)
  simp only [World.exec, h.transactions, find_free hfree]
  exact ⟨trivial, h⟩

/-- `commit` of the prepared transaction closes it if neither its load nor its save fails. -/
theorem wp_commit (hprepared : Prepared txns id txn w) (h : Books (txns ++ [txn]) t handler w) :
    wp World.answering out.Of (fun _ => True) (TransactionalCheckpoint.commit id)
      (fun r v =>
        (out.load = .succeeds ∧ out.commit = .succeeds) ∧ r = .ok () ∧ Books txns t handler v ∨
        ¬ (out.load = .succeeds ∧ out.commit = .succeeds) ∧ (∀ a, r ≠ .ok a) ∧
          Books (txns ++ [txn]) t handler v) w := by
  obtain ⟨cp, hcp⟩ := hprepared.stored
  refine wp_bind.mpr (wp_op fun c _ => ?_)
  simp only [World.exec, h.transactions, find_last hprepared.fresh hprepared.id,
    hprepared.prepared, hprepared.committed, not_true_eq_false, Bool.false_eq_true, if_false]
  refine wp_bind.mpr (wp_bind.mpr (wp_op fun c₁ hc₁ => ⟨trivial, ?_⟩))
  simp only [World.exec, hc₁.load]
  cases hload : out.load with
  | fails e applied =>
    refine .inr ⟨by simp, ?_, h⟩
    intro a ha
    cases ha
  | succeeds =>
    simp only [hcp, Result.toFault_ok]
    refine wp_bind.mpr (wp_op fun c₂ _ => ?_)
    refine wp_bind.mpr (wp_bind.mpr (wp_op fun c₃ hc₃ => ⟨trivial, ?_⟩))
    have hreply := hc₃.commit { cp with metadata := committedMetadata id (c₂ .clock).now } rfl
    simp only [World.exec, hreply]
    cases hcommit : out.commit with
    | fails e applied =>
      refine .inr ⟨by simp, ?_, ?_⟩
      · intro a ha
        cases ha
      · refine h.call ?_ _
        exact ⟨h.transactions, h.twoPhaseCommit, h.handler⟩
    | succeeds =>
      refine wp_op fun c₄ _ => .inl ⟨⟨trivial, rfl⟩, rfl, ?_⟩
      exact ⟨remove_last hprepared.fresh hprepared.id, h.twoPhaseCommit, h.handler⟩

theorem wp_commit_gone (hfree : ¬ Listed id txns) (h : Books txns t handler w) :
    wp World.answering P (fun _ => True) (TransactionalCheckpoint.commit id)
      (fun r v => (∀ a, r ≠ .ok a) ∧ Books txns t handler v) w := by
  refine wp_bind.mpr (wp_op fun c _ => ?_)
  simp only [World.exec, h.transactions, find_free hfree]
  refine ⟨trivial, ?_, h⟩
  intro a ha
  cases ha

/-! ## The methods of the at-least-once manager -/

variable {cfg : AtLeastOnceConfig}

/-- With two-phase commit a rollback takes the transaction out of `TwoPhaseCommit`. -/
theorem wp_manager_rollback (htwo : cfg.twoPhaseCommit = true) {left : Txns}
    (hrollback : ∀ v, Books txns t handler v →
      wp World.answering P (fun _ => True) (TransactionalCheckpoint.rollback id)
        (fun _ => Books left t handler) v)
    (h : Books txns t handler w) :
    wp World.answering P (fun _ => True) (AtLeastOnceManager.rollback cfg id)
      (fun r v => r = .ok () ∧
        Books (if handler then left else txns) (t.abort id) handler v) w := by
  have habort {txns' : Txns} {v : World} (hv : Books txns' t handler v) :
      wp World.answering P (fun _ => True) (Env.twoPhaseAbort id)
        (fun r v' => r = .ok () ∧ Books txns' (t.abort id) handler v') v := by
    refine wp_op fun c _ => ⟨rfl, hv.transactions, ?_, hv.handler⟩
    simp only [World.exec, hv.twoPhaseCommit]
  rw [AtLeastOnceManager.rollback, if_neg (by simp [htwo])]
  refine wp_bind.mpr (wp_op fun c _ => ?_)
  simp only [World.exec, h.handler]
  cases handler with
  | true =>
    refine wp_bind.mpr (wp_bind.mpr (wp_attempt.mpr ?_))
    exact (hrollback w h).mono (fun _ hv => hv) fun _ v _ hv => ⟨trivial, habort hv⟩
  | false => exact habort h

/-- With two-phase commit a commit fails: the transaction of the checkpoint is gone, and that of
`TwoPhaseCommit` is not prepared. -/
theorem wp_manager_commit (htwo : cfg.twoPhaseCommit = true) (hfree : ¬ Listed id txns)
    {started : TwoPhaseTransaction} (hstarted : t.transactions.lookup id = some started)
    (hstate : started.state = .started) (h : Books txns t handler w) :
    wp World.answering P (fun _ => True) (AtLeastOnceManager.commit cfg id)
      (fun r v => (∀ a, r ≠ .ok a) ∧ Books txns t handler v) w := by
  rw [AtLeastOnceManager.commit, if_neg (by simp [htwo])]
  refine wp_bind.mpr (wp_op fun c _ => ?_)
  simp only [World.exec, h.handler]
  cases handler with
  | true =>
    refine wp.bind (wp_commit_gone hfree h) ?_ ?_
    · intro a v _ hv
      exact absurd rfl (hv.1 a)
    · intro e v _ hv
      refine ⟨?_, hv.2⟩
      intro a ha
      cases ha
  | false =>
    refine wp_bind.mpr ⟨trivial, wp_bind.mpr (wp_op fun c' _ => ?_)⟩
    simp only [World.exec, h.twoPhaseCommit, TwoPhaseCommit.commit, hstarted, hstate, ne_eq,
      reduceCtorEq, not_false_eq_true, if_true]
    refine ⟨trivial, ?_, h.transactions, rfl, h.handler⟩
    intro a ha
    cases ha

/-! ## The deduplication -/

theorem wp_isDuplicate {Q : Except Fault Bool → World → Prop} {e : Event}
    (hseen : Duplicate cfg w e → Q (.ok true) w) (hnew : ¬ Duplicate cfg w e → Q (.ok false) w) :
    wp World.answering P (fun _ => True)
      (AtLeastOnceManager.isDuplicate cfg (createDedupKeyFromEvent e)) Q w := by
  unfold AtLeastOnceManager.isDuplicate
  split
  · next hdisabled => exact ⟨trivial, hnew fun h => hdisabled h.1⟩
  · next henabled =>
    refine wp_op fun c _ => ?_
    show Q (.ok (w.deduplicator.contains (createDedupKeyFromEvent e))) w
    cases hcontains : w.deduplicator.contains (createDedupKeyFromEvent e) with
    | true => exact hseen ⟨not_not.mp henabled, hcontains⟩
    | false =>
      refine hnew fun h => ?_
      cases hcontains.symm.trans h.2

theorem wp_markProcessed {Q : Except Fault Unit → World → Prop} {key : DeduplicationKey}
    (h : ∀ d, Q (.ok ()) { w with deduplicator := d }) :
    wp World.answering P (fun _ => True) (AtLeastOnceManager.markProcessed cfg key) Q w := by
  unfold AtLeastOnceManager.markProcessed
  split
  · exact ⟨trivial, h w.deduplicator⟩
  · exact wp_op fun c _ => h _

/-- Nothing is left of a batch exactly when all its events are duplicates. -/
theorem wp_deduplicate (batch : List Event) (h : Books txns t handler w) :
    wp World.answering P (fun _ => True) (deduplicate cfg batch)
      (fun r v => Books txns t handler v ∧
        ∃ kept, r = .ok kept ∧ (kept = [] ↔ ∀ e ∈ batch, Duplicate cfg w e)) w := by
  induction batch generalizing w with
  | nil => exact ⟨trivial, h, [], rfl, by simp⟩
  | cons e batch ih =>
    refine wp_bind.mpr (wp_isDuplicate (fun hseen => ?_) fun hnew => ?_)
    · refine (ih h).mono (fun _ _ => trivial) ?_
      intro r v _ hv
      obtain ⟨hbooks, kept, hr, hkept⟩ := hv
      refine ⟨hbooks, kept, hr, ?_⟩
      rw [hkept, List.forall_mem_cons]
      exact (and_iff_right hseen).symm
    · refine wp_bind.mpr (wp_markProcessed fun d => ?_)
      have hmarked : Books txns t handler { w with deduplicator := d } :=
        ⟨h.transactions, h.twoPhaseCommit, h.handler⟩
      refine wp.bind (ih hmarked) ?_ ?_
      · intro rest v _ hv
        refine ⟨trivial, hv.1, e :: rest, rfl, ?_⟩
        constructor
        · intro hnil
          cases hnil
        · intro hall
          exact absurd (hall e List.mem_cons_self) hnew
      · intro err v _ hv
        obtain ⟨-, kept, hr, -⟩ := hv
        cases hr

/-! ## The settlement of an answer -/

/-- The table of `TwoPhaseCommit` after a rollback. -/
def afterRollback (cfg : AtLeastOnceConfig) (id : String) (t : TwoPhaseCommit) : TwoPhaseCommit :=
  if cfg.twoPhaseCommit then t.abort id else t

theorem wp_rollbackBoth (hfree : ¬ Listed id txns) (hid : txn.transactionId = id)
    (h : Books (txns ++ [txn]) t handler w) :
    wp World.answering P (fun _ => True) (rollbackBoth cfg id)
      (fun r v => r = .ok () ∧ Books txns (afterRollback cfg id t) handler v) w := by
  refine wp.bind (wp_rollback hfree hid h) ?_ ?_
  · intro _ v _ hv
    cases htwo : cfg.twoPhaseCommit with
    | true =>
      refine (wp_manager_rollback htwo (fun v' => wp_rollback_gone hfree) hv.2).mono
        (fun _ h => h) ?_
      intro r v' _ hv'
      rw [ite_self] at hv'
      rw [afterRollback, if_pos htwo]
      exact hv'
    | false =>
      rw [AtLeastOnceManager.rollback, if_pos (by simp [htwo])]
      simp only [afterRollback, htwo, Bool.false_eq_true, if_false]
      exact ⟨trivial, rfl, hv.2⟩
  · intro e v _ hv
    cases hv.1

variable {task : TaskParams}

/-- An answer with a failure: both transactions are rolled back. -/
theorem wp_settleAnswer_failed (kept : List Event) {answer : Answer}
    (hfailed : ¬ Answer.Clean answer)
    (hfree : ¬ Listed id txns) (hid : txn.transactionId = id)
    (h : Books (txns ++ [txn]) t handler w) :
    wp World.answering P (fun _ => True) (settleAnswer cfg task id position kept answer)
      (fun _ => Books txns (afterRollback cfg id t) handler) w := by
  have hrollback : wp World.answering P (fun _ => True) (rollbackBoth cfg id)
      (fun r v => r = .ok () ∧ Books txns (afterRollback cfg id t) handler v) w :=
    wp_rollbackBoth hfree hid h
  cases answer with
  | response response =>
    rw [settleAnswer, if_neg fun hcount => hfailed ⟨response, rfl, hcount⟩]
    refine wp.bind hrollback ?_ fun e v _ hv => hv.2
    intro _ v _ hv
    have hquiet : (handOver task response.errors kept).Only Quiet :=
      handOver_only trivial trivial (fun _ _ => trivial) response.errors kept
    exact wp.bind (wp_quiet hquiet hv.2) (fun _ v' _ hv' => ⟨trivial, hv'⟩) fun e v' _ hv' => hv'
  | error e => exact wp.bind hrollback (fun _ v _ hv => ⟨trivial, hv.2⟩) fun e v _ hv => hv.2
  | dropped => exact wp.bind hrollback (fun _ v _ hv => ⟨trivial, hv.2⟩) fun e v _ hv => hv.2
  | sendFailed => exact wp.bind hrollback (fun _ v _ hv => ⟨trivial, hv.2⟩) fun e v _ hv => hv.2

/-- With two-phase commit an answer without failures leaves the table of `TwoPhaseCommit` as it
is. -/
theorem wp_settleAnswer_twoPhase (htwo : cfg.twoPhaseCommit = true) (kept : List Event)
    {answer : Answer} (hclean : Answer.Clean answer) (hprepared : Prepared txns id txn w)
    {started : TwoPhaseTransaction} (hstarted : t.transactions.lookup id = some started)
    (hstate : started.state = .started) (h : Books (txns ++ [txn]) t handler w) :
    wp World.answering out.Of (fun _ => True) (settleAnswer cfg task id position kept answer)
      (fun _ v => v.twoPhaseCommit = t) w := by
  obtain ⟨response, rfl, hcount⟩ := hclean
  rw [settleAnswer, if_pos hcount]
  refine wp.bind (wp_commit hprepared h) ?_ ?_
  · intro a v _ hv
    rcases hv with ⟨-, -, hv⟩ | ⟨-, hfails, -⟩
    · refine wp.bind (wp_manager_commit htwo hprepared.fresh hstarted hstate hv) ?_ ?_
      · intro a v' _ hv'
        exact absurd rfl (hv'.1 a)
      · intro e v' _ hv'
        exact hv'.2.twoPhaseCommit
    · exact absurd rfl (hfails a)
  · intro e v _ hv
    rcases hv with ⟨-, hok, -⟩ | ⟨-, -, hv⟩
    · cases hok
    · exact hv.twoPhaseCommit

/-- Without it the transaction is closed if the commit succeeds. -/
theorem wp_settleAnswer_checkpoint (htwo : cfg.twoPhaseCommit = false) (kept : List Event)
    {answer : Answer} (hclean : Answer.Clean answer) (hprepared : Prepared txns id txn w)
    (h : Books (txns ++ [txn]) t handler w) :
    wp World.answering out.Of (fun _ => True) (settleAnswer cfg task id position kept answer)
      (fun _ v =>
        (out.load = .succeeds ∧ out.commit = .succeeds) ∧ Books txns t handler v ∨
        ¬ (out.load = .succeeds ∧ out.commit = .succeeds) ∧ Books (txns ++ [txn]) t handler v)
      w := by
  obtain ⟨response, rfl, hcount⟩ := hclean
  rw [settleAnswer, if_pos hcount]
  refine wp.bind (wp_commit hprepared h) ?_ ?_
  · intro a v _ hv
    rcases hv with ⟨hok, -, hv⟩ | ⟨-, hfails, -⟩
    · rw [AtLeastOnceManager.commit, if_pos (by simp [htwo])]
      refine wp_bind.mpr ⟨trivial, wp_bind.mpr (wp_op fun c _ => ?_)⟩
      exact ⟨trivial, .inl ⟨hok, hv.transactions, hv.twoPhaseCommit, hv.handler⟩⟩
    · exact absurd rfl (hfails a)
  · intro e v _ hv
    rcases hv with ⟨-, hok, -⟩ | ⟨hfails, -, hv⟩
    · cases hok
    · exact .inr ⟨hfails, hv⟩

/-! ## The call -/

variable {w₀ : World}

theorem Bracketed.of_books (h : Books w₀.transactions t handler w)
    (ht : ∀ other, t.transactions.lookup other = w₀.twoPhaseCommit.transactions.lookup other) :
    Bracketed w₀ w where
  twoPhaseCommit other txn hlookup _ := by
    rw [h.twoPhaseCommit, ht] at hlookup
    exact hlookup
  transactions txn htxn := by
    rw [h.transactions] at htxn
    exact htxn

theorem not_bracketed_of_listed (hfree : ¬ Listed id w₀.transactions) (hid : txn.transactionId = id)
    (h : Books (w₀.transactions ++ [txn]) t handler w) : ¬ Bracketed w₀ w := by
  intro hb
  refine hfree (List.any_eq_true.mpr ⟨txn, hb.transactions txn ?_, by simp [hid]⟩)
  rw [h.transactions]
  exact List.mem_append_right _ List.mem_cons_self

/-- The table is that of `w₀` with the transaction started. -/
structure Started (w₀ : World) (id : String) (t : TwoPhaseCommit) : Prop where
  fresh : w₀.twoPhaseCommit.transactions.lookup id = none
  started : ∃ txn, t.transactions.lookup id = some txn ∧ txn.state = .started
  others : ∀ other, other ≠ id →
    t.transactions.lookup other = w₀.twoPhaseCommit.transactions.lookup other

theorem Started.abort (h : Started w₀ id t) (other : String) :
    (t.abort id).transactions.lookup other = w₀.twoPhaseCommit.transactions.lookup other := by
  rw [TwoPhaseCommit.lookup_abort]
  split
  · next heq => rw [heq, h.fresh]
  · next hne => exact h.others other hne

theorem Started.not_bracketed (h : Started w₀ id t) (hw : w.twoPhaseCommit = t) :
    ¬ Bracketed w₀ w := by
  intro hb
  obtain ⟨txn, hlookup, hstate⟩ := h.started
  rw [← hw] at hlookup
  cases h.fresh.symm.trans (hb.twoPhaseCommit id txn hlookup (.inl hstate))

/-- The destination has answered. -/
theorem Books.sent {kept : List Event} (h : Books txns t handler w) (delivery : Delivery) :
    Books txns t handler (w.observe (.processed kept delivery)) :=
  ⟨h.transactions, h.twoPhaseCommit, h.handler⟩

theorem Prepared.sent {kept : List Event} (h : Prepared txns id txn w) (delivery : Delivery) :
    Prepared txns id txn (w.observe (.processed kept delivery)) :=
  ⟨h.fresh, h.id, h.prepared, h.committed, h.stored⟩

theorem wp_deliver_twoPhase (htwo : cfg.twoPhaseCommit = true) (kept : List Event)
    (hstarted : Started w₀ id t) (hbegun : Begun w₀.transactions id txn)
    (h : Books (w₀.transactions ++ [txn]) t w₀.checkpointHandler w) :
    wp World.answering out.Of (fun _ => True) (deliver cfg task id position kept)
      (fun _ v => Bracketed w₀ v ↔
        if out.prepare = .succeeds then ¬ Answer.Clean out.answer
        else w₀.checkpointHandler = true) w := by
  refine wp.bind (wp_prepare hbegun h) ?_ ?_
  · intro prepared v _ hv
    rcases hv with ⟨hprepare, hr, txn', htxn', hv⟩ | ⟨hprepare, hr, hv⟩
    · cases hr
      rw [if_pos hprepare]
      refine wp_bind.mpr (wp_op fun c hc => ?_)
      simp only [World.exec, hc.answer]
      by_cases hclean : Answer.Clean out.answer
      -- the coordinator commits a transaction that nobody has prepared, and fails
      · obtain ⟨started, hlookup, hstate⟩ := hstarted.started
        refine (wp_settleAnswer_twoPhase htwo kept hclean (htxn'.sent _) hlookup hstate
          (hv.sent _)).mono (fun _ h => h) ?_
        intro _ v' _ hv'
        exact iff_of_false (hstarted.not_bracketed hv') (not_not.mpr hclean)
      · refine (wp_settleAnswer_failed kept hclean htxn'.fresh htxn'.id (hv.sent _)).mono
          (fun _ h => h) ?_
        intro _ v' _ hv'
        rw [afterRollback, if_pos htwo] at hv'
        exact iff_of_true (.of_books hv' hstarted.abort) hclean
    · cases hr
      rw [if_neg hprepare]
      have hrollback : ∀ v', Books (w₀.transactions ++ [txn]) t w₀.checkpointHandler v' →
          wp World.answering out.Of (fun _ => True) (TransactionalCheckpoint.rollback id)
            (fun _ => Books w₀.transactions t w₀.checkpointHandler) v' := by
        intro v' hv'
        exact (wp_rollback hbegun.fresh hbegun.id hv').mono (fun _ h => h) fun _ _ _ h => h.2
      refine wp.bind (wp_manager_rollback htwo hrollback hv) ?_ ?_
      · intro _ v' _ hv'
        refine ⟨trivial, ?_⟩
        -- only the coordinator rolls back here, and it reaches the checkpoint through its handler
        cases hhandler : w₀.checkpointHandler with
        | true =>
          rw [hhandler] at hv'
          exact iff_of_true (.of_books hv'.2 hstarted.abort) rfl
        | false =>
          rw [hhandler] at hv'
          exact iff_of_false (not_bracketed_of_listed hbegun.fresh hbegun.id hv'.2) (by simp)
      · intro e v' _ hv'
        cases hv'.1
  · intro e v _ hv
    rcases hv with ⟨-, hr, -⟩ | ⟨-, hr, -⟩
    · cases hr
    · cases hr

theorem wp_deliver_checkpoint (htwo : cfg.twoPhaseCommit = false) (kept : List Event)
    (hbegun : Begun w₀.transactions id txn)
    (h : Books (w₀.transactions ++ [txn]) w₀.twoPhaseCommit w₀.checkpointHandler w) :
    wp World.answering out.Of (fun _ => True) (deliver cfg task id position kept)
      (fun _ v => Bracketed w₀ v ↔ out.prepare = .succeeds ∧
        (Answer.Clean out.answer → out.load = .succeeds ∧ out.commit = .succeeds)) w := by
  refine wp.bind (wp_prepare hbegun h) ?_ ?_
  · intro prepared v _ hv
    rcases hv with ⟨hprepare, hr, txn', htxn', hv⟩ | ⟨hprepare, hr, hv⟩
    · cases hr
      refine wp_bind.mpr (wp_op fun c hc => ?_)
      simp only [World.exec, hc.answer]
      by_cases hclean : Answer.Clean out.answer
      · refine (wp_settleAnswer_checkpoint htwo kept hclean (htxn'.sent _) (hv.sent _)).mono
          (fun _ h => h) ?_
        intro _ v' _ hv'
        rcases hv' with ⟨hok, hv'⟩ | ⟨hfails, hv'⟩
        · exact iff_of_true (.of_books hv' fun _ => rfl) ⟨hprepare, fun _ => hok⟩
        · exact iff_of_false (not_bracketed_of_listed htxn'.fresh htxn'.id hv')
            fun hok => hfails (hok.2 hclean)
      · refine (wp_settleAnswer_failed kept hclean htxn'.fresh htxn'.id (hv.sent _)).mono
          (fun _ h => h) ?_
        intro _ v' _ hv'
        simp only [afterRollback, htwo, Bool.false_eq_true, if_false] at hv'
        exact iff_of_true (.of_books hv' fun _ => rfl) ⟨hprepare, fun h => absurd h hclean⟩
    · cases hr
      simp only [AtLeastOnceManager.rollback, htwo]
      exact ⟨trivial, iff_of_false (not_bracketed_of_listed hbegun.fresh hbegun.id hv)
        fun h => hprepare h.1⟩
  · intro e v _ hv
    rcases hv with ⟨-, hr, -⟩ | ⟨-, hr, -⟩
    · cases hr
    · cases hr

/-- From its transaction id on. A taken id is refused; else the call leaves its transaction open if
all events are duplicates, and what is left of the batch is delivered in the condition `D`. -/
theorem wp_transact {batch : List Event} {D : Prop} (hdedup : w.deduplicator = w₀.deduplicator)
    (h : Books w₀.transactions t w₀.checkpointHandler w)
    (hdeliver : ∀ txn kept v, Begun w₀.transactions id txn →
      Books (w₀.transactions ++ [txn]) t w₀.checkpointHandler v →
      wp World.answering out.Of (fun _ => True) (deliver cfg task id position kept)
        (fun _ v' => Bracketed w₀ v' ↔ D) v) :
    wp World.answering out.Of (fun _ => True) (transact cfg task batch position id)
      (fun _ v =>
        Listed id w₀.transactions ∧ Books w₀.transactions t w₀.checkpointHandler v ∨
        ¬ Listed id w₀.transactions ∧
          (Bracketed w₀ v ↔ (∃ e ∈ batch, ¬ Duplicate cfg w₀ e) ∧ D)) w := by
  have hduplicate : (∀ e ∈ batch, Duplicate cfg w e) ↔ ¬ ∃ e ∈ batch, ¬ Duplicate cfg w₀ e := by
    simp only [Duplicate, hdedup]
    push Not
    rfl
  by_cases hlisted : Listed id w₀.transactions
  · refine wp.bind (wp_begin_listed hlisted h) ?_ ?_
    · intro a v _ hv
      exact absurd rfl (hv.1 a)
    · intro e v _ hv
      exact .inl ⟨hlisted, hv.2⟩
  · refine wp.bind (wp_begin hlisted h) ?_ ?_
    · intro a v _ hv
      obtain ⟨-, hsame, now, hv⟩ := hv
      refine wp.bind (wp_deduplicate batch hv) ?_ ?_
      · intro kept v' _ hv'
        obtain ⟨hbooks, kept', hr, hkept⟩ := hv'
        cases hr
        have hempty : kept = [] ↔ ¬ ∃ e ∈ batch, ¬ Duplicate cfg w₀ e := by
          rw [hkept, ← hduplicate]
          simp only [Duplicate, hsame]
        split
        -- all events are duplicates: the call returns and leaves its transaction in the list
        · next hnil =>
          refine ⟨trivial, .inr ⟨hlisted, iff_of_false ?_ fun h => hempty.mp hnil h.1⟩⟩
          exact not_bracketed_of_listed hlisted rfl hbooks
        · next hne =>
          refine (hdeliver _ kept v' ⟨hlisted, rfl, rfl, rfl⟩ hbooks).mono (fun _ h => h) ?_
          intro _ v'' _ hv''
          refine .inr ⟨hlisted, hv''.trans (and_iff_right ?_).symm⟩
          exact not_not.mp fun h => hne (hempty.mpr h)
      · intro e v' _ hv'
        obtain ⟨-, kept, hr, -⟩ := hv'
        cases hr
    · intro e v _ hv
      cases hv.1

/-- The table after `begin` of an id that is new to it. -/
theorem Started.begin (hfresh : id ∉ w₀.twoPhaseCommit.transactions) (now : Nat) (taskId : String) :
    Started w₀ id (w₀.twoPhaseCommit.beginTransaction now id taskId).2 where
  fresh := AList.lookup_eq_none.mpr hfresh
  started := by
    rw [TwoPhaseCommit.lookup_beginTransaction, if_pos ⟨rfl, AList.lookup_eq_none.mpr hfresh⟩]
    exact ⟨_, rfl, rfl⟩
  others other hne := by
    rw [TwoPhaseCommit.lookup_beginTransaction, if_neg fun h => hne h.1]

theorem Bracketed.refl (w : World) : Bracketed w w := ⟨fun _ _ h _ => h, fun _ h => h⟩

/-- A call with two-phase commit, from its transaction id on. -/
theorem wp_call_twoPhase (htwo : cfg.twoPhaseCommit = true) (batch : List Event) (w : World) :
    wp World.answering out.Of (fun _ => True)
      ((do
          let now ← Env.clock
          orThrow (Env.twoPhaseBegin now id task.taskId)
          pure id : TaskProg String).bind (transact cfg task batch position))
      (fun _ v => Bracketed w v ↔ ClosesTwoPhase cfg batch out id w) w := by
  refine wp_bind.mpr (wp_bind.mpr (wp_op fun c _ => ?_))
  refine wp_bind.mpr (wp_bind.mpr (wp_op fun c' _ => ⟨trivial, ?_⟩))
  by_cases hmem : id ∈ w.twoPhaseCommit.transactions
  · simp only [World.exec, TwoPhaseCommit.beginTransaction, hmem, if_true]
    exact iff_of_true (Bracketed.refl w) (.inl hmem)
  · have hstarted := Started.begin hmem (c .clock).now task.taskId
    have hok := (w.twoPhaseCommit.beginTransaction_ok (c .clock).now id task.taskId).mpr
      hstarted.fresh
    simp only [World.exec, hok, Result.toFault_ok]
    refine ⟨trivial, ?_⟩
    have hcall : ∀ v, v.deduplicator = w.deduplicator →
        Books w.transactions (w.twoPhaseCommit.beginTransaction (c .clock).now id task.taskId).2
          w.checkpointHandler v →
        wp World.answering out.Of (fun _ => True) (transact cfg task batch position id)
          (fun _ v' => Bracketed w v' ↔ ClosesTwoPhase cfg batch out id w) v := by
      intro v hdedup hv
      refine (wp_transact hdedup hv fun txn kept v' hbegun hv' =>
        wp_deliver_twoPhase htwo kept hstarted hbegun hv').mono (fun _ h => h) ?_
      intro _ v' _ hv'
      rw [ClosesTwoPhase, or_iff_right hmem]
      rcases hv' with ⟨hlisted, hbooks⟩ | ⟨hfree, hiff⟩
      · exact iff_of_false (hstarted.not_bracketed hbooks.twoPhaseCommit) fun h => h.1 hlisted
      · exact hiff.trans (and_iff_right hfree).symm
    exact hcall _ rfl ⟨rfl, rfl, rfl⟩

/-- A call without two-phase commit. -/
theorem wp_call_checkpoint (htwo : cfg.twoPhaseCommit = false) (batch : List Event) (w : World) :
    wp World.answering out.Of (fun _ => True) (transact cfg task batch position "")
      (fun _ v => Bracketed w v ↔ ClosesCheckpoint cfg batch out w) w := by
  refine (wp_transact rfl (Books.refl w) fun txn kept v hbegun hv =>
    wp_deliver_checkpoint htwo kept hbegun hv).mono (fun _ h => h) ?_
  intro _ v _ hv
  rw [ClosesCheckpoint]
  rcases hv with ⟨hlisted, hbooks⟩ | ⟨hfree, hiff⟩
  · exact iff_of_true (.of_books hbooks fun _ => rfl) (.inl hlisted)
  · exact hiff.trans (or_iff_right hfree).symm

/-- **A call closes both transactions that it begins exactly in the condition `Closes`.** -/
theorem bracketed_iff {c : Op → Choice} {cs : List (Op → Choice)} {batch : List Event}
    {r : Except Fault (List Event)} {w' : World} (hout : ∀ c' ∈ c :: cs, out.Of c')
    (hrun : run World.answering (c :: cs) (processBatchWithAtLeastOnce cfg task batch) w =
      some (r, w')) :
    Bracketed w w' ↔ Closes cfg task batch out (c .newUuid).uuid w := by
  rw [Closes, batchPosition]
  unfold processBatchWithAtLeastOnce at hrun
  cases hlast : batch.getLast? with
  | none =>
    simp only [hlast] at hrun
    cases hrun
    exact iff_of_true (Bracketed.refl w) (.inl rfl)
  | some last =>
    simp only [hlast] at hrun
    rw [Option.bind_some]
    cases hposition : extractPositionFromEvent last with
    | none =>
      simp only [hposition] at hrun
      cases hrun
      exact iff_of_true (Bracketed.refl w) (.inl rfl)
    | some position =>
      simp only [hposition] at hrun
      rw [or_iff_right (by simp)]
      cases htwo : cfg.twoPhaseCommit with
      | true =>
        simp only [AtLeastOnceManager.beginTransaction, htwo] at hrun
        -- the identifier is drawn first
        have hruns := runs_of_run (fun c' hc' => hout c' (List.mem_cons_of_mem c hc')) hrun
        exact (wp_iff.mp (wp_call_twoPhase htwo batch w)).2 r w' hruns
      | false =>
        simp only [AtLeastOnceManager.beginTransaction, htwo] at hrun
        exact (wp_iff.mp (wp_call_checkpoint htwo batch w)).2 r w' (runs_of_run hout hrun)

/-! ## Two calls for a book -/

/-- Surroundings in which the storage works, and the destination answers `answer`. -/
def answering (answer : Answer) (_ : Op) : Choice :=
  ⟨0, "4f2a", fun _ => .succeeds, .succeeds, fun _ => ⟨answer, []⟩⟩

theorem answering_of (answer : Answer) :
    Outcomes.Of ⟨.succeeds, .succeeds, .succeeds, answer⟩ (answering answer) :=
  ⟨fun _ _ => rfl, fun _ => rfl, fun _ _ => rfl, fun _ => rfl⟩

/-- The destination drops its answer to a new event, and the call closes what it has begun. -/
theorem bracketed_iff_dropped : ∃ r w',
    run World.answering (List.replicate 30 (answering .dropped))
      (processBatchWithAtLeastOnce ⟨true, 100, 30, true⟩ ⟨"books", true, none⟩ [bookInserted])
      freshWorld = some (r, w') ∧ Bracketed freshWorld w' := by
  have hrun : ∃ r w',
      run World.answering (answering .dropped :: List.replicate 29 (answering .dropped))
        (processBatchWithAtLeastOnce ⟨true, 100, 30, true⟩ ⟨"books", true, none⟩ [bookInserted])
        freshWorld = some (r, w') := ⟨_, _, rfl⟩
  have hout : ∀ c ∈ answering .dropped :: List.replicate 29 (answering .dropped),
      Outcomes.Of ⟨.succeeds, .succeeds, .succeeds, .dropped⟩ c := by
    intro c hc
    rw [← List.replicate_succ] at hc
    rw [List.eq_of_mem_replicate hc]
    exact answering_of .dropped
  have hnew : ¬ Duplicate ⟨true, 100, 30, true⟩ freshWorld bookInserted := by
    simp [Duplicate, freshWorld, EventDeduplicator.new, EventDeduplicator.contains]
  have hclean : ¬ Answer.Clean .dropped := by simp [Answer.Clean]
  obtain ⟨r, w', hrun⟩ := hrun
  refine ⟨r, w', hrun, (bracketed_iff hout hrun).mpr (.inr (.inr ⟨?_, ?_, hclean⟩))⟩
  · simp [Listed, freshWorld]
  · exact ⟨bookInserted, List.mem_cons_self, hnew⟩

/-- A world in which the event has been seen. -/
def seenWorld : World :=
  { freshWorld with
    deduplicator := (EventDeduplicator.new 100).add (createDedupKeyFromEvent bookInserted) }

/-- All events of the batch are duplicates. -/
theorem not_always_bracketed : ¬ ∀ (cfg : AtLeastOnceConfig) (task : TaskParams)
    (batch : List Event) (w w' : World) (cs : List (Op → Choice))
    (r : Except Fault (List Event)),
    run World.answering cs (processBatchWithAtLeastOnce cfg task batch) w = some (r, w') →
      Bracketed w w' := by
  intro h
  have hopen := h ⟨true, 100, 30, true⟩ ⟨"books", true, none⟩ [bookInserted] seenWorld _
    (List.replicate 8 (answering .dropped)) _ rfl
  cases hopen.transactions _ List.mem_cons_self

end TransactionBrackets

end MeiliBridge
