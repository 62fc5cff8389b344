import MeiliBridge.Orchestrator.BatchSpec

/-!
# The commit after a successful delivery

A call on a batch of new events, in surroundings where nothing fails, while the other tasks go on
using the same managers. The call drives two transaction stores: `TransactionalCheckpoint` and,
with two-phase commit, `TwoPhaseCommit`. The coordinator's commit commits the checkpoint a second
time, when its transaction is gone already, so with two-phase commit no call ever succeeds
(`commits_iff`); and without it all transactions share the empty id, so a call succeeds exactly if
no other one is in progress when it begins.
-/

set_option autoImplicit false

namespace MeiliBridge

open Interaction TransactionalCheckpoint PipelineOrchestrator

/-- The transaction ids that two-phase commit makes for a task. -/
def OwnId (taskId transactionId : String) : Prop :=
  ∃ uuid : String, transactionId = s!"{taskId}-{uuid}"

/-- The task has a transaction of this id in the list. -/
def Listed (taskId transactionId : String) (w : World) : Prop :=
  ∃ txn ∈ ofId w.transactions transactionId, txn.taskId = taskId

/-- What other tasks do between two operations of a call: they leave the task's record, its
transactions and its in-memory checkpoint alone, and do not mark events of its batch as seen. The
empty id is the task's only while its transaction is in the list: before and after, others begin and
end transactions under it, here even where the call has locked the list and they have to wait. -/
structure OthersOnly (taskId : String) (batch : List Event) (w w' : World) : Prop where
  record : w'.storage.lookup taskId = w.storage.lookup taskId
  transactions : ∀ id, OwnId taskId id ∨ Listed taskId id w →
    ofId w'.transactions id = ofId w.transactions id
  twoPhase : ∀ id, OwnId taskId id →
    w'.twoPhaseCommit.transactions.lookup id = w.twoPhaseCommit.transactions.lookup id
  unseen : ∀ e ∈ batch, w.deduplicator.contains (createDedupKeyFromEvent e) = false →
    w'.deduplicator.contains (createDedupKeyFromEvent e) = false
  handler : w'.checkpointHandler = w.checkpointHandler
  position : w'.checkpoints.lookup taskId = w.checkpoints.lookup taskId

theorem OthersOnly.refl (taskId : String) (batch : List Event) (w : World) :
    OthersOnly taskId batch w w :=
  ⟨rfl, fun _ _ => rfl, fun _ _ => rfl, fun _ _ h => h, rfl, rfl⟩

/-- No storage operation fails, the destination takes everything, and the other tasks mind their
own business. -/
def Smooth (taskId : String) (batch : List Event) (c : Choice × (World → World)) : Prop :=
  (∀ other, c.1.storage other = .succeeds) ∧
  (∀ events, Answer.Clean (c.1.delivery events).answer) ∧
  ∀ w, OthersOnly taskId batch w (c.2 w)

/-- What a call on a delivered batch should leave behind. -/
structure Committed (cfg : AtLeastOnceConfig) (taskId : String) (position : Position)
    (r : Except Fault (List Event)) (w : World) : Prop where
  returned : r = .ok []
  inMemory : w.checkpoints.lookup taskId = some position
  stored : ∃ cp, w.storage.lookup taskId = some cp ∧ cp.committed = some true
  twoPhase : cfg.twoPhaseCommit = true → ∃ id txn,
    w.twoPhaseCommit.transactions.lookup id = some txn ∧ txn.taskId = taskId ∧
    txn.state = .committed

theorem listed_of_eq {taskId transactionId : String} {w : World} {txn : CheckpointTransaction}
    (h : ofId w.transactions transactionId = [txn]) (htask : txn.taskId = taskId) :
    Listed taskId transactionId w :=
  ⟨txn, h ▸ List.mem_singleton_self txn, htask⟩

section

variable {cfg : AtLeastOnceConfig} {task : TaskParams} {taskId transactionId : String}
  {batch : List Event} {w : World}

/-- One operation in a smooth world. -/
theorem wp_op {o : Op} {Q : Except Fault o.Ans → World → Prop}
    (h : ∀ c v, Smooth taskId batch c → OthersOnly taskId batch (w.exec c.1 o).2 v →
      Q (.ok (w.exec c.1 o).1) v) :
    wp World.handler.shared (Smooth taskId batch) (fun _ => True) (.perform o) Q w :=
  ⟨trivial, fun c hc => ⟨trivial, h c _ hc (hc.2.2 _)⟩⟩

theorem wp_beginTransaction (batch : List Event) (taskId transactionId : String)
    (position : Position) (hfree : ofId w.transactions transactionId = []) :
    wp World.handler.shared (Smooth taskId batch) (fun _ => True)
      (TransactionalCheckpoint.beginTransaction transactionId taskId position)
      (fun r v => r = .ok () ∧ ∃ now,
        ofId v.transactions transactionId = [⟨transactionId, taskId, position, false, false, now⟩])
      w := by
  refine wp_bind.mpr (wp_op fun c v hc hv => ?_)
  have hany : w.transactions.any (·.transactionId = transactionId) = false :=
    any_eq_false.mpr hfree
  simp only [World.exec, hany, Bool.false_eq_true, if_false]
  refine wp_bind.mpr (wp_op fun c' v' hc' hv' => ?_)
  refine wp_op fun c'' v'' hc'' hv'' => ⟨rfl, c'.1.now, ?_⟩
  -- from here on the transaction is in the list
  have hbegun : ofId (v'.exec c''.1 (.setTransactions (w.transactions ++
      [⟨transactionId, taskId, position, false, false, c'.1.now⟩]))).2.transactions transactionId =
      [⟨transactionId, taskId, position, false, false, c'.1.now⟩] := by
    simp only [World.exec]
    rw [ofId_append_self w.transactions ⟨transactionId, taskId, position, false, false, c'.1.now⟩,
      hfree]
    rfl
  exact (hv''.transactions _ (.inr (listed_of_eq hbegun rfl))).trans hbegun

theorem wp_beginTransaction_taken (position : Position)
    (htaken : ofId w.transactions transactionId ≠ []) :
    wp World.handler.shared (Smooth taskId batch) (fun _ => True)
      (TransactionalCheckpoint.beginTransaction transactionId taskId position)
      (fun r _ => ∀ a, r ≠ .ok a) w := by
  refine wp_bind.mpr (wp_op fun c v hc hv => ?_)
  have hany : w.transactions.any (·.transactionId = transactionId) = true := by
    rw [← Bool.not_eq_false, any_eq_false]
    exact htaken
  simp only [World.exec, hany, if_true]
  refine ⟨trivial, ?_⟩
  intro a h
  cases h

/-- The task's transaction is prepared, and its record is in the storage. -/
def PreparedTxn (taskId transactionId : String) (w : World) : Prop :=
  (∃ txn, ofId w.transactions transactionId = [txn] ∧ txn.taskId = taskId ∧ txn.prepared = true ∧
    txn.committed = false) ∧
  ∃ cp, w.storage.lookup taskId = some cp ∧ cp.taskId = taskId

theorem wp_prepare (batch : List Event) {txn : CheckpointTransaction}
    (htxn : ofId w.transactions transactionId = [txn]) (htask : txn.taskId = taskId)
    (hprepared : txn.prepared = false) (hcommitted : txn.committed = false) :
    wp World.handler.shared (Smooth taskId batch) (fun _ => True)
      (TransactionalCheckpoint.prepare transactionId)
      (fun r v => r = .ok true ∧ PreparedTxn taskId transactionId v) w := by
  refine wp_bind.mpr (wp_op fun c v hc hv => ?_)
  simp only [World.exec, find_eq, htxn, List.head?_cons, hprepared, Bool.false_eq_true, if_false]
  refine wp_bind.mpr (wp_op fun c₁ v₁ hc₁ hv₁ => ?_)
  refine wp_bind.mpr (wp_op fun c₂ v₂ hc₂ hv₂ => ?_)
  refine wp_bind.mpr (wp_op fun c₃ v₃ hc₃ hv₃ => ?_)
  simp only [World.exec, hc₃.1, Reply.call] at hv₃ ⊢
  refine wp_bind.mpr (wp_op fun c₄ v₄ hc₄ hv₄ => ?_)
  have hmarked : ofId (v₃.exec c₄.1 (.setTransactions (markPrepared transactionId
      w.transactions))).2.transactions transactionId = [{ txn with prepared := true }] := by
    simp only [World.exec]
    rw [ofId_markPrepared, htxn]
    rfl
  refine ⟨trivial, rfl, ⟨{ txn with prepared := true }, ?_, htask, rfl, hcommitted⟩, ?_⟩
  · exact (hv₄.transactions _ (.inr (listed_of_eq hmarked htask))).trans hmarked
  · rw [hv₄.record]
    simp only [World.exec]
    rw [hv₃.record]
    obtain rfl := htask
    exact ⟨_, AList.lookup_insert _, rfl⟩

theorem wp_commit (batch : List Event) (h : PreparedTxn taskId transactionId w) :
    wp World.handler.shared (Smooth taskId batch) (fun _ => True)
      (TransactionalCheckpoint.commit transactionId)
      (fun r v => r = .ok () ∧
        (OwnId taskId transactionId → ofId v.transactions transactionId = []) ∧
        ∃ cp, v.storage.lookup taskId = some cp ∧ cp.committed = some true) w := by
  obtain ⟨⟨txn, htxn, htask, hprepared, hcommitted⟩, cp, hcp, hkey⟩ := h
  refine wp_bind.mpr (wp_op fun c v hc hv => ?_)
  simp only [World.exec, find_eq, htxn, List.head?_cons, hprepared, hcommitted, not_true_eq_false,
    Bool.false_eq_true, if_false]
  have hloaded : v.storage.lookup txn.taskId = some cp := by rw [htask, hv.record]; exact hcp
  refine wp_bind.mpr (wp_bind.mpr (wp_op fun c₁ v₁ hc₁ hv₁ => ⟨trivial, ?_⟩))
  simp only [World.exec, hc₁.1, hloaded, Result.toFault_ok]
  refine wp_bind.mpr (wp_op fun c₂ v₂ hc₂ hv₂ => ?_)
  refine wp_bind.mpr (wp_bind.mpr (wp_op fun c₃ v₃ hc₃ hv₃ => ⟨trivial, ?_⟩))
  simp only [World.exec, hc₃.1, Reply.call, Result.toFault_ok] at hv₃ ⊢
  refine wp_op fun c₄ v₄ hc₄ hv₄ => ⟨rfl, fun hown => ?_, ?_⟩
  · rw [hv₄.transactions _ (.inl hown)]
    simp only [World.exec]
    rw [ofId_remove, htxn]
    rfl
  · rw [hv₄.record]
    simp only [World.exec]
    rw [hv₃.record]
    simp only [hkey]
    exact ⟨_, AList.lookup_insert _, rfl⟩

/-! ### The deduplication -/

/-- What the deduplication leaves alone: the handler is set, and this is the only transaction of the
call's id. -/
structure Waiting (transactionId : String) (txn : CheckpointTransaction) (w : World) : Prop where
  handler : w.checkpointHandler = true
  transactions : ofId w.transactions transactionId = [txn]

theorem Waiting.others {txn : CheckpointTransaction} (htask : txn.taskId = taskId) {w' : World}
    (h : Waiting transactionId txn w) (hw : OthersOnly taskId batch w w') :
    Waiting transactionId txn w' :=
  ⟨hw.handler.trans h.handler,
    (hw.transactions _ (.inr (listed_of_eq h.transactions htask))).trans h.transactions⟩

/-- Whether an event is a duplicate; a new one is not. -/
theorem wp_isDuplicate_shared {txn : CheckpointTransaction} (htask : txn.taskId = taskId)
    (h : Waiting transactionId txn w) (key : DeduplicationKey) :
    wp World.handler.shared (Smooth taskId batch) (Waiting transactionId txn)
      (AtLeastOnceManager.isDuplicate cfg key)
      (fun r _ => ∃ duplicate, r = .ok duplicate ∧
        (w.deduplicator.contains key = false → duplicate = false)) w := by
  unfold AtLeastOnceManager.isDuplicate
  split
  · exact ⟨h, false, rfl, fun _ => rfl⟩
  · exact ⟨h, fun c hc => ⟨h.others htask (hc.2.2 _), _, rfl, id⟩⟩

theorem wp_markProcessed_shared {txn : CheckpointTransaction} (htask : txn.taskId = taskId)
    (h : Waiting transactionId txn w) (key : DeduplicationKey) :
    wp World.handler.shared (Smooth taskId batch) (Waiting transactionId txn)
      (AtLeastOnceManager.markProcessed cfg key) (fun r _ => r = .ok ()) w := by
  unfold AtLeastOnceManager.markProcessed
  split
  · exact ⟨h, rfl⟩
  · have hadded : Waiting transactionId txn
        { w with deduplicator := w.deduplicator.add key } := ⟨h.handler, h.transactions⟩
    exact ⟨h, fun c hc => ⟨hadded.others htask (hc.2.2 _), rfl⟩⟩

/-- The loop never fails, and keeps its first event if that is new. -/
theorem wp_deduplicate_shared {txn : CheckpointTransaction} (htask : txn.taskId = taskId)
    (events : List Event) (h : Waiting transactionId txn w) :
    wp World.handler.shared (Smooth taskId batch) (Waiting transactionId txn)
      (deduplicate cfg events)
      (fun r _ => ∃ kept, r = .ok kept ∧ ∀ e rest, events = e :: rest →
        w.deduplicator.contains (createDedupKeyFromEvent e) = false → kept ≠ []) w := by
  induction events generalizing w with
  | nil => exact ⟨h, [], rfl, fun _ _ heq => nomatch heq⟩
  | cons e events ih =>
    refine wp.bind (wp_isDuplicate_shared htask h _) ?_ ?_
    · rintro duplicate v hv ⟨_, hr, hnew⟩
      cases hr
      split
      · next hdup =>
        refine (ih hv).mono (fun _ h' => h') ?_
        rintro r v' - ⟨kept, rfl, -⟩
        refine ⟨kept, rfl, fun e' rest heq hunseen => ?_⟩
        cases heq
        rw [hnew hunseen] at hdup
        cases hdup
      · refine wp.bind (wp_markProcessed_shared htask hv _) (fun _ v' hv' _ => ?_) ?_
        · refine wp.bind (ih hv') ?_ ?_
          · rintro rest v'' hv'' -
            exact ⟨hv'', e :: rest, rfl, fun _ _ _ _ => List.cons_ne_nil _ _⟩
          · rintro err v'' - ⟨_, hr, -⟩
            cases hr
        · intro err v' _ hr
          cases hr
    · rintro err v - ⟨_, hr, -⟩
      cases hr

/-! ### The parts of a call -/

theorem handler_frame (c : Choice) (w : World) (o : Op) :
    (w.exec c o).2.checkpointHandler = w.checkpointHandler := by
  cases o with
  | loadCheckpoint other =>
    simp only [World.exec]
    split <;> rfl
  | saveCheckpoint cp => exact World.call_eq World.checkpointHandler rfl
  | deleteCheckpoint other => exact World.call_eq World.checkpointHandler rfl
  | storeDeadLetter entry source => exact World.call_eq World.checkpointHandler rfl
  | _ => rfl

/-- The coordinator's handler stays set. -/
theorem wp_handler {α : Type} (p : TaskProg α) (h : w.checkpointHandler = true) :
    wp World.handler.shared (Smooth taskId batch) (fun v => v.checkpointHandler = true) p
      (fun _ v => v.checkpointHandler = true) w :=
  wp_invariant (fun o c v hc hv =>
    (hc.2.2 _).handler.trans ((handler_frame c.1 v o).trans hv)) p h

/-- The batch is new to the deduplicator. -/
def Unseen (batch : List Event) (w : World) : Prop :=
  ∀ e ∈ batch, w.deduplicator.contains (createDedupKeyFromEvent e) = false

/-- What the call does before the deduplication leaves the batch new. -/
theorem wp_unseen {α : Type} {p : TaskProg α} (hp : p.Only (Op.Within [.books]))
    (h : Unseen batch w) :
    wp World.handler.shared (Smooth taskId batch) (Unseen batch) p (fun _ => Unseen batch) w := by
  refine wp_only (fun o c v ho hc hv e he => (hc.2.2 _).unseen e he ?_) hp h
  show (v.exec c.1 o).2.deduplicator.contains _ = false
  rw [World.deduplicator_frame (ho.not (by decide))]
  exact hv e he

/-- Of a new batch something is left to send. -/
theorem wp_deduplicate_new {txn : CheckpointTransaction} (htask : txn.taskId = taskId)
    (hne : batch ≠ []) (h : Waiting transactionId txn w) (hunseen : Unseen batch w) :
    wp World.handler.shared (Smooth taskId batch) (fun _ => True) (deduplicate cfg batch)
      (fun r v => Waiting transactionId txn v ∧ ∃ kept, r = .ok kept ∧ kept ≠ []) w := by
  refine (wp_deduplicate_shared htask batch h).mono (fun _ _ => trivial) ?_
  rintro r v hv ⟨kept, rfl, hkept⟩
  obtain ⟨e, rest, rfl⟩ := List.exists_cons_of_ne_nil hne
  exact ⟨hv, kept, rfl, hkept e rest rfl (hunseen e List.mem_cons_self)⟩

theorem wp_manager_beginTransaction (cfg : AtLeastOnceConfig) (taskId : String)
    (batch : List Event) (w : World) :
    wp World.handler.shared (Smooth taskId batch) (fun _ => True)
      (AtLeastOnceManager.beginTransaction cfg taskId)
      (fun r _ => ∀ id, r = .ok id → cfg.twoPhaseCommit = true → OwnId taskId id) w := by
  unfold AtLeastOnceManager.beginTransaction
  split
  · next hoff =>
    refine ⟨trivial, fun id _ htwo => ?_⟩
    exact absurd htwo (by simpa using hoff)
  · refine wp_bind.mpr (wp_op fun c v _ _ => wp_bind.mpr (wp_op fun c' v' _ _ => ?_))
    refine wp.bind (wp_true _ _) (fun _ v'' _ _ => ⟨trivial, fun id hr _ => ?_⟩)
      fun _ _ _ _ _ hr => nomatch hr
    cases hr
    exact ⟨_, rfl⟩

/-- What a call can end in, once it has got its transaction: without two-phase commit the batch is
committed, with it the call fails. -/
def Ends (cfg : AtLeastOnceConfig) (taskId : String) (position : Position)
    (r : Except Fault (List Event)) (w : World) : Prop :=
  (cfg.twoPhaseCommit = false → Committed cfg taskId position r w) ∧
  (cfg.twoPhaseCommit = true → ∀ left, r ≠ .ok left)

/-- The coordinator's commit finds the checkpoint's transaction gone. -/
theorem wp_manager_commit_fails (htwo : cfg.twoPhaseCommit = true)
    (hown : OwnId taskId transactionId) (hhandler : w.checkpointHandler = true)
    (hgone : ofId w.transactions transactionId = []) :
    wp World.handler.shared (Smooth taskId batch) (fun _ => True)
      (AtLeastOnceManager.commit cfg transactionId) (fun r _ => r ≠ .ok ()) w := by
  rw [AtLeastOnceManager.commit, if_neg (by simp [htwo])]
  refine wp_bind.mpr (wp_op fun c v _ hv => ?_)
  have hfind : find v.transactions transactionId = none := by
    rw [find_eq, hv.transactions _ (.inl hown)]
    exact congrArg List.head? hgone
  simp only [World.exec, hhandler, TransactionCoordinator.commitCheckpoint, if_true]
  refine wp_bind.mpr (wp_bind.mpr (wp_op fun c' v' _ _ => ?_))
  simp only [World.exec, hfind]
  refine ⟨trivial, ?_⟩
  intro h
  cases h

theorem wp_settleAnswer_clean (hown : cfg.twoPhaseCommit = true → OwnId task.taskId transactionId)
    (position : Position)
    (kept : List Event) {answer : Answer} (hclean : Answer.Clean answer)
    (hhandler : w.checkpointHandler = true) (h : PreparedTxn task.taskId transactionId w) :
    wp World.handler.shared (Smooth task.taskId batch) (fun _ => True)
      (settleAnswer cfg task transactionId position kept answer)
      (Ends cfg task.taskId position) w := by
  obtain ⟨response, rfl, hcount⟩ := hclean
  rw [settleAnswer, if_pos hcount]
  have hcommit := (wp_commit batch h).and
    (wp_handler (TransactionalCheckpoint.commit transactionId) hhandler)
  refine wp.bind (hcommit.mono (fun _ _ => trivial) fun _ _ _ hr => hr) ?_ ?_
  -- with two phases the manager commits once more and finds no transaction
  · rintro _ v - ⟨⟨-, hgone, cp, hcp, hcommitted⟩, hhandler'⟩
    cases htwo : cfg.twoPhaseCommit with
    | true =>
      refine wp.bind (wp_manager_commit_fails htwo (hown htwo) hhandler' (hgone (hown htwo))) ?_ ?_
      · intro _ _ _ hr
        exact absurd rfl hr
      · intro err _ _ _
        refine ⟨fun hfalse => by simp [htwo] at hfalse, ?_⟩
        intro _ _ hr
        cases hr
    | false =>
      rw [AtLeastOnceManager.commit, if_pos (by simp [htwo])]
      refine wp_bind.mpr ⟨trivial, wp_bind.mpr (wp_op fun c v' _ hv' => ?_)⟩
      refine ⟨trivial, fun _ => ⟨rfl, ?_, ⟨cp, ?_, hcommitted⟩, fun htrue => ?_⟩, fun htrue => ?_⟩
      · rw [hv'.position]
        exact AList.lookup_insert _
      · rw [hv'.record]
        exact hcp
      · simp [htwo] at htrue
      · simp [htwo] at htrue
  · rintro err v - ⟨⟨hr, -⟩, -⟩
    cases hr

theorem wp_deliver_new (hown : cfg.twoPhaseCommit = true → OwnId task.taskId transactionId)
    (position : Position)
    (kept : List Event) (hhandler : w.checkpointHandler = true) {txn : CheckpointTransaction}
    (htxn : ofId w.transactions transactionId = [txn]) (htask : txn.taskId = task.taskId)
    (hprepared : txn.prepared = false) (hcommitted : txn.committed = false) :
    wp World.handler.shared (Smooth task.taskId batch) (fun _ => True)
      (deliver cfg task transactionId position kept) (Ends cfg task.taskId position) w := by
  have hprepare := (wp_prepare batch htxn htask hprepared hcommitted).and
    (wp_handler (TransactionalCheckpoint.prepare transactionId) hhandler)
  refine wp.bind (hprepare.mono (fun _ _ => trivial) fun _ _ _ hr => hr) ?_ ?_
  · rintro _ v - ⟨⟨hr, htxn', cp, hcp, hkey⟩, hhandler'⟩
    cases hr
    refine wp_bind.mpr (wp_op fun c v' hc hv' => ?_)
    refine wp_settleAnswer_clean hown position kept (hc.2.1 kept) ?_ ⟨?_, cp, ?_, hkey⟩
    · exact hv'.handler.trans hhandler'
    · obtain ⟨txn', htxn', htask', hrest⟩ := htxn'
      have hlisted := listed_of_eq htxn' htask'
      exact ⟨txn', (hv'.transactions _ (.inr hlisted)).trans htxn', htask', hrest⟩
    · exact hv'.record.trans hcp
  · rintro err v - ⟨⟨hr, -⟩, -⟩
    cases hr

theorem wp_transact_new (cfg : AtLeastOnceConfig)
    (hown : cfg.twoPhaseCommit = true → OwnId task.taskId transactionId) (position : Position)
    (hne : batch ≠ []) (hhandler : w.checkpointHandler = true) (hunseen : Unseen batch w)
    (hfree : ofId w.transactions transactionId = []) :
    wp World.handler.shared (Smooth task.taskId batch) (fun _ => True)
      (transact cfg task batch position transactionId) (Ends cfg task.taskId position) w := by
  have hbegin := ((wp_beginTransaction batch task.taskId transactionId position hfree).and
    (wp_handler _ hhandler)).and
    (wp_unseen (TransactionalCheckpoint.beginTransaction_only (by decide) _ _ _) hunseen)
  refine wp.bind (hbegin.mono (fun _ _ => trivial) fun _ _ _ hr => hr) ?_ ?_
  · rintro _ v - ⟨⟨⟨-, now, htxn⟩, hhandler'⟩, hunseen'⟩
    refine wp.bind (wp_deduplicate_new rfl hne ⟨hhandler', htxn⟩ hunseen') ?_ ?_
    · rintro kept v' - ⟨hwaiting, _, hr, hkept⟩
      cases hr
      rw [if_neg hkept]
      exact wp_deliver_new hown position kept hwaiting.handler hwaiting.transactions rfl rfl rfl
    · rintro err v' - ⟨-, _, hr, -⟩
      cases hr
  · rintro err v - ⟨⟨⟨hr, -⟩, -⟩, -⟩
    cases hr

theorem wp_transact_taken (position : Position)
    (htaken : ofId w.transactions transactionId ≠ []) :
    wp World.handler.shared (Smooth task.taskId batch) (fun _ => True)
      (transact cfg task batch position transactionId) (fun r _ => ∀ left, r ≠ .ok left) w :=
  wp.bind (wp_beginTransaction_taken position htaken)
    (fun _ _ _ hr => absurd rfl (hr _)) fun _ _ _ _ _ hr => nomatch hr

/-- With two-phase commit a call never returns normally. -/
theorem wp_twoPhase_fails (htwo : cfg.twoPhaseCommit = true) {last : Event} {position : Position}
    (hlast : batch.getLast? = some last) (hpos : extractPositionFromEvent last = some position)
    (hunseen : Unseen batch w) (hhandler : w.checkpointHandler = true) :
    wp World.handler.shared (Smooth task.taskId batch) (fun _ => True)
      (processBatchWithAtLeastOnce cfg task batch) (fun r _ => ∀ left, r ≠ .ok left) w := by
  have hne : batch ≠ [] := fun h => by simp [h] at hlast
  unfold processBatchWithAtLeastOnce
  simp only [hlast, hpos]
  have hbegin := ((wp_manager_beginTransaction cfg task.taskId batch w).and
    (wp_handler _ hhandler)).and
    (wp_unseen (AtLeastOnceManager.beginTransaction_only (by decide) cfg task.taskId) hunseen)
  refine wp.bind (hbegin.mono (fun _ _ => trivial) fun _ _ _ hr => hr) ?_
    fun _ _ _ _ _ hr => nomatch hr
  rintro transactionId v - ⟨⟨hown, hhandler'⟩, hunseen'⟩
  by_cases hfree : ofId v.transactions transactionId = []
  · exact (wp_transact_new cfg (hown _ rfl) position hne hhandler' hunseen' hfree).mono
      (fun _ h => h) fun _ _ _ hr => hr.2 htwo
  · exact wp_transact_taken position hfree

end

/-! ## The guarantee -/

/-- Surroundings in which nothing fails and the other tasks do nothing. -/
def calm : Choice × (World → World) :=
  (⟨0, "4f2a", fun _ => .succeeds, .succeeds, fun _ => ⟨.response ⟨1, 0, none, []⟩, []⟩⟩, id)

theorem smooth_calm (taskId : String) (batch : List Event) : Smooth taskId batch calm :=
  ⟨fun _ => rfl, fun _ => ⟨_, rfl, rfl⟩, OthersOnly.refl taskId batch⟩

/-- A call that never returns normally does not commit. -/
theorem not_always_committed {cfg : AtLeastOnceConfig} {task : TaskParams} {batch : List Event}
    {position : Position} {w : World}
    (h : wp World.handler.shared (Smooth task.taskId batch) (fun _ => True)
      (processBatchWithAtLeastOnce cfg task batch) (fun r _ => ∀ left, r ≠ .ok left) w) :
    ¬ ∀ r w', Runs World.handler.shared (Smooth task.taskId batch)
      (processBatchWithAtLeastOnce cfg task batch) w r w' →
        Committed cfg task.taskId position r w' := by
  intro hall
  obtain ⟨r, w', hr⟩ := exists_runs ⟨calm, smooth_calm task.taskId batch⟩
    (processBatchWithAtLeastOnce cfg task batch) w
  exact (wp_iff.mp h).2 r w' hr [] (hall r w' hr).returned

/-- **A delivered batch is committed exactly when two-phase commit is off and no transaction with
the empty id is in progress.** -/
theorem commits_iff (cfg : AtLeastOnceConfig) (task : TaskParams) {batch : List Event}
    {last : Event} {position : Position} {w : World} (hlast : batch.getLast? = some last)
    (hpos : extractPositionFromEvent last = some position)
    (hunseen : ∀ e ∈ batch, w.deduplicator.contains (createDedupKeyFromEvent e) = false)
    (hhandler : w.checkpointHandler = true) :
    (∀ r w', Runs World.handler.shared (Smooth task.taskId batch)
      (processBatchWithAtLeastOnce cfg task batch) w r w' →
        Committed cfg task.taskId position r w') ↔
    cfg.twoPhaseCommit = false ∧ ∀ txn ∈ w.transactions, txn.transactionId ≠ "" := by
  have hne : batch ≠ [] := fun h => by simp [h] at hlast
  have hfree : ofId w.transactions "" = [] ↔ ∀ txn ∈ w.transactions, txn.transactionId ≠ "" := by
    simp [ofId, List.filter_eq_nil_iff]
  -- without two-phase commit the transaction has the empty id
  have htransact : cfg.twoPhaseCommit = false →
      processBatchWithAtLeastOnce cfg task batch = transact cfg task batch position "" := by
    intro htwo
    simp only [processBatchWithAtLeastOnce, hlast, hpos, AtLeastOnceManager.beginTransaction, htwo]
    rfl
  constructor
  · intro hall
    have htwo : cfg.twoPhaseCommit = false := by
      by_contra htwo
      exact not_always_committed
        (wp_twoPhase_fails (Bool.not_eq_false _ ▸ htwo) hlast hpos hunseen hhandler) hall
    refine ⟨htwo, hfree.mp ?_⟩
    by_contra htaken
    refine not_always_committed ?_ hall
    rw [htransact htwo]
    exact wp_transact_taken position htaken
  · rintro ⟨htwo, hnone⟩ r w' hr
    rw [htransact htwo] at hr
    have hown : cfg.twoPhaseCommit = true → OwnId task.taskId "" := by simp [htwo]
    have hends := (wp_iff.mp (wp_transact_new cfg hown position hne hhandler hunseen
      (hfree.mpr hnone))).2 r w' hr
    exact hends.1 htwo

def bookBatch : List Event :=
  [.cdc ⟨.create, "books", "public", [("id", .string "b1")], some (.postgreSQL "0/10")⟩]

/-- The authors' transaction under this id. -/
def authorsTransaction (transactionId : String) : CheckpointTransaction :=
  ⟨transactionId, "authors", .postgreSQL "0/8", false, false, 0⟩

/-- A world in which these transactions are in progress. -/
def bookWorld (transactions : List CheckpointTransaction) : World :=
  ⟨∅, transactions, .new 100, .new 30, true, ∅, ∅, []⟩

/-- A book's call without two-phase commit, in these surroundings. -/
def BookRuns (transactions : List CheckpointTransaction) (r : Except Fault (List Event))
    (w : World) : Prop :=
  Runs World.handler.shared (Smooth "books" bookBatch)
    (processBatchWithAtLeastOnce ⟨true, 100, 30, false⟩ ⟨"books", true, none⟩ bookBatch)
    (bookWorld transactions) r w

/-- The authors begin their transaction as soon as the book's is committed. -/
def authorsNext : Choice × (World → World) :=
  (calm.1, fun w =>
    if (w.storage.lookup "books").any (·.committed = some true) ∧ ofId w.transactions "" = [] then
      { w with transactions := w.transactions ++ [authorsTransaction ""] }
    else w)

theorem smooth_authorsNext : Smooth "books" bookBatch authorsNext := by
  refine ⟨fun _ => rfl, fun _ => ⟨_, rfl, rfl⟩, fun w => ?_⟩
  unfold authorsNext
  dsimp only
  split
  · next hnext =>
    refine ⟨rfl, fun id hid => ?_, fun _ _ => rfl, fun _ _ h => h, rfl, rfl⟩
    have hne : id ≠ "" := by
      rintro rfl
      rcases hid with ⟨uuid, hid⟩ | ⟨txn, htxn, -⟩
      · have hlength := congrArg String.length hid
        have hnone : ("" : String).length = 0 := rfl
        have hbooks : (toString "books").length = 5 := rfl
        simp only [String.length_append] at hlength
        omega
      · rw [hnext.2] at htxn
        cases htxn
    simp [ofId, authorsTransaction, Ne.symm hne]
  · exact .refl _ _ _

/-- The authors' transaction does no harm once the book's has left the list. -/
theorem commits_iff_book :
    (∃ w, BookRuns [] (.ok []) w ∧ authorsTransaction "" ∈ w.transactions ∧
      Committed ⟨true, 100, 30, false⟩ "books" (.postgreSQL "0/10") (.ok []) w) ∧
    ¬ ∀ r w, BookRuns [authorsTransaction ""] r w →
      Committed ⟨true, 100, 30, false⟩ "books" (.postgreSQL "0/10") r w := by
  have hiff (transactions : List CheckpointTransaction) : (∀ r w, BookRuns transactions r w →
      Committed ⟨true, 100, 30, false⟩ "books" (.postgreSQL "0/10") r w) ↔ _ :=
    commits_iff ⟨true, 100, 30, false⟩ ⟨"books", true, none⟩ rfl rfl (fun _ _ => rfl) rfl
  refine ⟨?_, fun h => ?_⟩
  · have hruns : BookRuns [] _ _ := runs_eval smooth_authorsNext _ _
    have hall := (hiff []).mpr ⟨rfl, nofun⟩ _ _ hruns
    exact ⟨_, hruns, by decide, hall⟩
  · exact absurd ((hiff [authorsTransaction ""]).mp h).2 (by decide)

/-- With two-phase commit on. -/
theorem not_always_commits : ¬ ∀ (cfg : AtLeastOnceConfig) (task : TaskParams)
    (batch : List Event) (last : Event) (position : Position) (w : World),
    batch.getLast? = some last → extractPositionFromEvent last = some position →
    (∀ e ∈ batch, w.deduplicator.contains (createDedupKeyFromEvent e) = false) →
    w.checkpointHandler = true →
    ∀ r w', Runs World.handler.shared (Smooth task.taskId batch)
      (processBatchWithAtLeastOnce cfg task batch) w r w' →
        Committed cfg task.taskId position r w' := by
  intro h
  have hall := h ⟨true, 100, 30, true⟩ ⟨"books", true, none⟩ bookBatch _ _
    (bookWorld [authorsTransaction "authors-77"]) rfl rfl (fun _ _ => rfl) rfl
  exact not_always_committed (wp_twoPhase_fails rfl rfl rfl (fun _ _ => rfl) rfl) hall

end MeiliBridge
