import MeiliBridge.Lib.Trans
import MeiliBridge.Delivery.TransactionalCheckpoint

/-!
# What a rollback leaves in the storage

The transactions of many tasks as a machine whose steps are whole methods of
`TransactionalCheckpoint`, in any order; each method holds the mutex of the list. `prepare`
overwrites the task's record, and `rollback` and the cleanup of stale transactions delete it, so
what was there before comes back only if nothing was there (`rollback_restores_iff`). The records
of tasks none of whose prepared transactions is rolled back stay as they are.
-/

set_option autoImplicit false

namespace MeiliBridge

open Interaction Trans

namespace TransactionalCheckpoint

inductive Call where
  | begin (transactionId taskId : String) (position : Position)
  | prepare (transactionId : String)
  | commit (transactionId : String)
  | rollback (transactionId : String)
  | cleanup (timeoutSecs : Nat)

/-- Whether the call answers that a transaction is prepared. -/
def Call.program : Call → TaskProg Bool
  | .begin transactionId taskId position => do
    beginTransaction transactionId taskId position
    pure false
  | .prepare transactionId => TransactionalCheckpoint.prepare transactionId
  | .commit transactionId => do
    TransactionalCheckpoint.commit transactionId
    pure false
  | .rollback transactionId => do
    TransactionalCheckpoint.rollback transactionId
    pure false
  | .cleanup timeoutSecs => do
    cleanupStaleTransactions timeoutSecs
    pure false

/-- A call, and for which tasks the storage calls it makes take effect. -/
structure Label where
  call : Call
  effective : String → Bool

/-- Storage calls about a task take effect as the label says, whatever they answer; and a fresh
identifier is that of no record. -/
def Label.Allows (l : Label) (w : World) (c : Choice) : Prop :=
  (∀ taskId, (c.storage taskId).takesEffect = l.effective taskId) ∧
  ∀ taskId cp, w.storage.lookup taskId = some cp → cp.id ≠ c.uuid

/-- The world, and the record the task of each prepared transaction had before. -/
structure State where
  world : World
  before : String → Option (Option Checkpoint)

/-- The record a call puts aside when it prepares a transaction. -/
def recordBefore (s : State) : Call → Except Fault Bool → String → Option (Option Checkpoint)
  | .prepare transactionId, .ok true =>
    match find s.world.transactions transactionId with
    | some txn =>
      if txn.prepared then s.before
      else Function.update s.before transactionId (some (s.world.storage.lookup txn.taskId))
    | none => s.before
  | _, _ => s.before

/-- Any storage, no transaction yet, and then one call after the other. -/
def machine : Machine State Label where
  init s := s.world.transactions = []
  step s l s' := ∃ r, Runs World.handler (l.Allows s.world) l.call.program s.world r s'.world ∧
    s'.before = recordBefore s l.call r

/-- A transaction is only prepared while its task has no other prepared one. -/
def OnePrepared (s : State) (l : Label) : Prop :=
  ∀ transactionId, l.call = .prepare transactionId →
    ∀ txn, find s.world.transactions transactionId = some txn →
      ∀ other ∈ s.world.transactions, other.prepared = true → other.taskId = txn.taskId →
        other.transactionId = transactionId

/-! ## What each call does -/

section

variable {P : Choice → Prop} {w : World}

theorem wp_op {o : Op} {Q : Except Fault o.Ans → World → Prop}
    (h : ∀ c, P c → Q (.ok (w.exec c o).1) (w.exec c o).2) :
    wp World.handler P (fun _ => True) (.perform o) Q w :=
  ⟨trivial, fun c hc => ⟨trivial, h c hc⟩⟩

theorem wp_begin (transactionId taskId : String) (position : Position) :
    wp World.handler P (fun _ => True) (beginTransaction transactionId taskId position)
      (fun _ v => v = w ∨ ofId w.transactions transactionId = [] ∧ ∃ now, v = { w with
        transactions := w.transactions ++ [⟨transactionId, taskId, position, false, false, now⟩] })
      w := by
  refine wp_bind.mpr (wp_op fun c _ => ?_)
  by_cases hany : w.transactions.any (·.transactionId = transactionId) = true
  · simp only [World.exec, hany, if_true]
    exact ⟨trivial, Or.inl rfl⟩
  · simp only [World.exec, hany]
    refine wp_bind.mpr (wp_op fun c' _ => wp_op fun c'' _ => Or.inr ⟨?_, c'.now, rfl⟩)
    exact any_eq_false.mp (Bool.not_eq_true _ ▸ hany)

/-- The effect of a call on a transaction that is not prepared yet: it is prepared, or perhaps its
record is saved all the same. -/
inductive Prepared (P : Choice → Prop) (transactionId : String) (w : World) :
    Except Fault Bool → World → Prop
  | nothing (r : Except Fault Bool)
      (h : ∀ txn, r = .ok true → find w.transactions transactionId = some txn →
        txn.prepared = true) : Prepared P transactionId w r w
  | done (txn : CheckpointTransaction) (cp : Checkpoint) (c : Choice)
      (hfind : find w.transactions transactionId = some txn) (hprepared : txn.prepared = false)
      (htask : cp.taskId = txn.taskId) (hc : P c) (hid : cp.id = c.uuid) :
      Prepared P transactionId w (.ok true) { w with
        storage := w.storage.insert cp.taskId cp
        transactions := markPrepared transactionId w.transactions }
  | failed (txn : CheckpointTransaction) (cp : Checkpoint)
      (hfind : find w.transactions transactionId = some txn) (hprepared : txn.prepared = false)
      (htask : cp.taskId = txn.taskId) :
      Prepared P transactionId w (.ok false) { w with storage := w.storage.insert cp.taskId cp }

theorem wp_prepare (transactionId : String) :
    wp World.handler P (fun _ => True) (TransactionalCheckpoint.prepare transactionId)
      (Prepared P transactionId w) w := by
  refine wp_bind.mpr (wp_op fun c _ => ?_)
  simp only [World.exec]
  cases hfind : find w.transactions transactionId with
  | none => exact ⟨trivial, .nothing _ fun _ h => nomatch h⟩
  | some txn =>
    by_cases hprepared : txn.prepared = true
    · simp only [hprepared, if_true]
      refine ⟨trivial, .nothing _ fun txn' _ h => ?_⟩
      obtain rfl := Option.some.inj (hfind.symm.trans h)
      exact hprepared
    · simp only [hprepared]
      rw [Bool.not_eq_true] at hprepared
      refine wp_bind.mpr (wp_op fun c₁ hc₁ => ?_)
      refine wp_bind.mpr (wp_op fun c₂ _ => ?_)
      refine wp_bind.mpr (wp_op fun c₃ _ => ?_)
      set cp := preparedCheckpoint txn transactionId c₁.uuid c₂.now
      simp only [World.exec]
      cases c₃.storage cp.taskId with
      | succeeds =>
        exact wp_bind.mpr (wp_op fun c₄ _ =>
          ⟨trivial, .done txn cp c₁ hfind hprepared rfl hc₁ rfl⟩)
      | fails e applied =>
        cases applied with
        | true => exact ⟨trivial, .failed txn cp hfind hprepared rfl⟩
        | false => exact ⟨trivial, .nothing _ fun _ h => nomatch h⟩

/-- The effect of a commit: nothing, or the record is saved again under another mark, and then the
transaction may be gone. -/
inductive CommitEffect (transactionId : String) (w : World) : World → Prop
  | nothing : CommitEffect transactionId w w
  | saved (txn : CheckpointTransaction) (cp : Checkpoint) (metadata : Value) (gone : Bool)
      (hfind : find w.transactions transactionId = some txn) (hprepared : txn.prepared = true)
      (hcp : w.storage.lookup txn.taskId = some cp) :
      CommitEffect transactionId w { w with
        storage := w.storage.insert cp.taskId { cp with metadata }
        transactions := if gone then remove w.transactions transactionId else w.transactions }

/-- What a commit returns, and what it has done by then. -/
inductive CommitOutcome (P : Choice → Prop) (transactionId : String) (w : World) :
    Except Fault Unit → World → Prop
  | nothing (r : Except Fault Unit) : CommitOutcome P transactionId w r w
  | done (txn : CheckpointTransaction) (cp : Checkpoint) (metadata : Value)
      (hfind : find w.transactions transactionId = some txn) (hprepared : txn.prepared = true)
      (hcp : w.storage.lookup txn.taskId = some cp) :
      CommitOutcome P transactionId w (.ok ()) { w with
        storage := w.storage.insert cp.taskId { cp with metadata }
        transactions := remove w.transactions transactionId }
  /-- the storage answers with an error although the record is saved -/
  | failed (txn : CheckpointTransaction) (cp : Checkpoint) (metadata : Value) (c : Choice)
      (e : MeiliBridgeError) (fault : Fault)
      (hfind : find w.transactions transactionId = some txn) (hprepared : txn.prepared = true)
      (hcp : w.storage.lookup txn.taskId = some cp) (hc : P c)
      (hreply : c.storage cp.taskId = .fails e true) :
      CommitOutcome P transactionId w (.error fault) { w with
        storage := w.storage.insert cp.taskId { cp with metadata } }

theorem CommitOutcome.effect {transactionId : String} {r : Except Fault Unit} {v : World}
    (h : CommitOutcome P transactionId w r v) : CommitEffect transactionId w v := by
  cases h with
  | nothing r => exact .nothing
  | done txn cp metadata hfind hprepared hcp =>
      exact .saved txn cp metadata true hfind hprepared hcp
  | failed txn cp metadata c e fault hfind hprepared hcp =>
    exact .saved txn cp metadata false hfind hprepared hcp

theorem wp_commit (transactionId : String) :
    wp World.handler P (fun _ => True) (TransactionalCheckpoint.commit transactionId)
      (CommitOutcome P transactionId w) w := by
  refine wp_bind.mpr (wp_op fun c _ => ?_)
  simp only [World.exec]
  cases hfind : find w.transactions transactionId with
  | none => exact ⟨trivial, .nothing _⟩
  | some txn =>
    by_cases hprepared : txn.prepared = true
    · simp only [hprepared, not_true_eq_false, if_false]
      by_cases hcommitted : txn.committed = true
      · simp only [hcommitted, if_true]
        exact ⟨trivial, .nothing _⟩
      · simp only [hcommitted]
        refine wp_bind.mpr (wp_bind.mpr (wp_op fun c₁ _ => ?_))
        simp only [World.exec]
        cases c₁.storage txn.taskId with
        | fails e applied => exact ⟨trivial, .nothing _⟩
        | succeeds =>
          refine ⟨trivial, ?_⟩
          cases hcp : w.storage.lookup txn.taskId with
          | none => exact ⟨trivial, .nothing _⟩
          | some cp =>
            refine wp_bind.mpr (wp_op fun c₂ _ => ?_)
            refine wp_bind.mpr (wp_bind.mpr (wp_op fun c₃ hc₃ => ?_))
            simp only [World.exec]
            cases hreply : c₃.storage cp.taskId with
            | succeeds =>
              exact ⟨trivial, wp_op fun c₄ _ => .done txn cp _ hfind hprepared hcp⟩
            | fails e applied =>
              -- the storage may have kept the record although its answer got lost
              cases applied with
              | true => exact ⟨trivial, .failed txn cp _ c₃ e _ hfind hprepared hcp hc₃ hreply⟩
              | false => exact ⟨trivial, .nothing _⟩
    · simp only [hprepared]
      exact ⟨trivial, .nothing _⟩

/-- The storage after a transaction has been discarded, where a deletion takes effect for the tasks
`effective` says. -/
def discard (effective : String → Bool) (txn : CheckpointTransaction) (storage : Dict Checkpoint) :
    Dict Checkpoint :=
  if txn.prepared ∧ ¬ txn.committed ∧ effective txn.taskId then storage.erase txn.taskId
  else storage

/-- The list and the storage after the transactions of these ids have been rolled back. -/
def rolledBack (effective : String → Bool) :
    List String → Txns → Dict Checkpoint → Txns × Dict Checkpoint
  | [], txns, storage => (txns, storage)
  | id :: ids, txns, storage =>
    match find txns id with
    | none => rolledBack effective ids txns storage
    | some txn => rolledBack effective ids (remove txns id) (discard effective txn storage)

/-- The world after a rollback of these ids. -/
def RolledBack (effective : String → Bool) (ids : List String) (w v : World) : Prop :=
  v = { w with
    transactions := (rolledBack effective ids w.transactions w.storage).1
    storage := (rolledBack effective ids w.transactions w.storage).2 }

theorem wp_discardPrepared {effective : String → Bool}
    (hP : ∀ c, P c → ∀ taskId, (c.storage taskId).takesEffect = effective taskId)
    (txn : CheckpointTransaction) :
    wp World.handler P (fun _ => True) (discardPrepared txn)
      (fun r v => r = .ok () ∧ v = { w with storage := discard effective txn w.storage }) w := by
  unfold discardPrepared discard
  by_cases hopen : txn.prepared = true ∧ ¬ txn.committed = true
  · rw [if_pos hopen]
    refine wp_bind.mpr (wp_op fun c hc => ⟨trivial, rfl, ?_⟩)
    simp only [World.exec, Reply.call_snd, hP c hc, hopen.1, hopen.2]
    split <;> simp_all
  · rw [if_neg hopen]
    refine ⟨trivial, rfl, ?_⟩
    rw [if_neg fun h => hopen ⟨h.1, h.2.1⟩]

theorem wp_cleanupLoop {effective : String → Bool}
    (hP : ∀ c, P c → ∀ taskId, (c.storage taskId).takesEffect = effective taskId)
    (ids : List String) (w : World) :
    wp World.handler P (fun _ => True) (cleanupLoop ids w.transactions)
      (fun _ v => RolledBack effective ids w v) w := by
  induction ids generalizing w with
  | nil => exact ⟨trivial, rfl⟩
  | cons id ids ih =>
    unfold RolledBack cleanupLoop rolledBack
    cases hfind : find w.transactions id with
    | none => exact ih w
    | some txn =>
      refine wp.bind (wp_discardPrepared hP txn) ?_ fun _ _ _ h => nomatch h.1
      rintro _ v - ⟨-, rfl⟩
      refine wp_bind.mpr (wp_op fun c _ => ?_)
      exact ih { w with
        storage := discard effective txn w.storage
        transactions := remove w.transactions id }

theorem wp_rollback {effective : String → Bool}
    (hP : ∀ c, P c → ∀ taskId, (c.storage taskId).takesEffect = effective taskId)
    (transactionId : String) (w : World) :
    wp World.handler P (fun _ => True) (TransactionalCheckpoint.rollback transactionId)
      (fun _ v => RolledBack effective [transactionId] w v) w := by
  refine wp_bind.mpr (wp_op fun c _ => ?_)
  unfold RolledBack rolledBack rolledBack
  simp only [World.exec]
  cases hfind : find w.transactions transactionId with
  | none => exact ⟨trivial, rfl⟩
  | some txn =>
    refine wp.bind (wp_discardPrepared hP txn) ?_ ?_
    · intro _ v _ hv
      obtain ⟨-, rfl⟩ := hv
      exact wp_op fun c _ => rfl
    · intro err v _ hv
      cases hv.1

theorem wp_cleanup {effective : String → Bool}
    (hP : ∀ c, P c → ∀ taskId, (c.storage taskId).takesEffect = effective taskId)
    (timeoutSecs : Nat) (w : World) :
    wp World.handler P (fun _ => True) (cleanupStaleTransactions timeoutSecs)
      (fun _ v => ∃ ids, RolledBack effective ids w v) w := by
  refine wp_bind.mpr (wp_op fun c _ => wp_bind.mpr (wp_op fun c' _ => ?_))
  exact (wp_cleanupLoop hP _ w).mono (fun _ h => h) fun _ _ _ h => ⟨_, h⟩

end

/-! ## Transactions under distinct ids -/

/-- No two transactions of the list have one id. -/
def DistinctIds (txns : Txns) : Prop := (txns.map (·.transactionId)).Nodup

theorem DistinctIds.head_ne {t : CheckpointTransaction} {ts : Txns} (h : DistinctIds (t :: ts)) :
    ∀ x ∈ ts, x.transactionId ≠ t.transactionId := fun _ hx heq =>
  (List.nodup_cons.mp h).1 (List.mem_map.mpr ⟨_, hx, heq⟩)

theorem mem_remove {txns : Txns} (h : DistinctIds txns) (id : String) (x : CheckpointTransaction) :
    x ∈ remove txns id ↔ x ∈ txns ∧ x.transactionId ≠ id := by
  induction txns with
  | nil => simp [remove]
  | cons t ts ih =>
    have hts : DistinctIds ts := (List.nodup_cons.mp h).2
    by_cases ht : t.transactionId = id
    · have hothers : ∀ y ∈ ts, y.transactionId ≠ id := ht ▸ h.head_ne
      simp only [remove, List.eraseP_cons, ht, decide_true, List.mem_cons]
      constructor
      · exact fun hx => ⟨Or.inr hx, hothers x hx⟩
      · rintro ⟨rfl | hx, hne⟩
        · exact absurd ht hne
        · exact hx
    · have hcons : remove (t :: ts) id = t :: remove ts id := by simp [remove, ht]
      rw [hcons, List.mem_cons, List.mem_cons, ih hts]
      constructor
      · rintro (rfl | ⟨hx, hne⟩)
        · exact ⟨Or.inl rfl, ht⟩
        · exact ⟨Or.inr hx, hne⟩
      · rintro ⟨rfl | hx, hne⟩
        · exact Or.inl rfl
        · exact Or.inr ⟨hx, hne⟩

theorem DistinctIds.remove {txns : Txns} (h : DistinctIds txns) (id : String) :
    DistinctIds (TransactionalCheckpoint.remove txns id) :=
  List.Nodup.sublist (List.eraseP_sublist.map _) h

theorem find_some {txns : Txns} {id : String} {txn : CheckpointTransaction}
    (h : find txns id = some txn) : txn ∈ txns ∧ txn.transactionId = id :=
  ⟨List.mem_of_find?_eq_some h, by simpa using List.find?_some h⟩

theorem DistinctIds.eq {txns : Txns} (h : DistinctIds txns) {x y : CheckpointTransaction}
    (hx : x ∈ txns) (hy : y ∈ txns) (hid : x.transactionId = y.transactionId) : x = y :=
  List.inj_on_of_nodup_map h hx hy hid

theorem ids_markPrepared (id : String) (txns : Txns) :
    (markPrepared id txns).map (·.transactionId) = txns.map (·.transactionId) := by
  induction txns with
  | nil => rfl
  | cons t ts ih =>
    rw [markPrepared]
    split
    · rfl
    · rw [List.map_cons, ih, List.map_cons]

/-- Preparing changes the one transaction. -/
theorem mem_markPrepared {txns : Txns} {id : String} {txn : CheckpointTransaction}
    (h : DistinctIds txns) (hfind : find txns id = some txn) {x : CheckpointTransaction}
    (hx : x ∈ markPrepared id txns) :
    x = { txn with prepared := true } ∨ x ∈ txns ∧ x.transactionId ≠ id := by
  induction txns with
  | nil => cases hx
  | cons t ts ih =>
    have hts : DistinctIds ts := (List.nodup_cons.mp h).2
    by_cases ht : t.transactionId = id
    · rw [markPrepared, if_pos ht] at hx
      have htxn : txn = t := by simpa [find, ht] using hfind.symm
      rcases List.mem_cons.mp hx with rfl | hx
      · exact Or.inl (by rw [htxn])
      · exact Or.inr ⟨List.mem_cons_of_mem _ hx, ht ▸ h.head_ne x hx⟩
    · rw [markPrepared, if_neg ht] at hx
      have hrest : find ts id = some txn := by simpa [find, ht] using hfind
      rcases List.mem_cons.mp hx with rfl | hx
      · exact Or.inr ⟨List.mem_cons_self, ht⟩
      · exact (ih hts hrest hx).imp_right fun h' => ⟨List.mem_cons_of_mem _ h'.1, h'.2⟩

/-- What a rollback of some ids does to the list and the storage. -/
structure Restores (effective : String → Bool) (txns : Txns) (storage : Dict Checkpoint)
    (txns' : Txns) (storage' : Dict Checkpoint) : Prop where
  sub : txns'.Sublist txns
  untouched : ∀ taskId, (∀ x ∈ txns, x.prepared = true → x ∉ txns' → x.taskId ≠ taskId) →
    storage'.lookup taskId = storage.lookup taskId
  kept : ∀ taskId, effective taskId = false → storage'.lookup taskId = storage.lookup taskId
  deleted : ∀ x ∈ txns, x.prepared = true → x ∉ txns' → effective x.taskId = true →
    storage'.lookup x.taskId = none
  none : ∀ taskId, storage.lookup taskId = none → storage'.lookup taskId = none

theorem lookup_discard {effective : String → Bool} {txn : CheckpointTransaction}
    {storage : Dict Checkpoint} (hcommitted : txn.committed = false) (taskId : String) :
    (discard effective txn storage).lookup taskId =
      if txn.prepared = true ∧ txn.taskId = taskId ∧ effective taskId = true then none
      else storage.lookup taskId := by
  unfold discard
  by_cases htask : txn.taskId = taskId
  · subst htask
    by_cases hboth : txn.prepared = true ∧ effective txn.taskId = true
    · simp [hboth, hcommitted]
    · rw [if_neg fun h => hboth ⟨h.1, h.2.2⟩, if_neg fun h => hboth ⟨h.1, h.2.2⟩]
  · have hno : ¬ (txn.prepared = true ∧ txn.taskId = taskId ∧ effective taskId = true) :=
      fun h => htask h.2.1
    rw [if_neg hno]
    split
    · exact AList.lookup_erase_ne (Ne.symm htask)
    · rfl

theorem rolledBack_restores (effective : String → Bool) (ids : List String) {txns : Txns}
    (hids : DistinctIds txns) (hopen : ∀ x ∈ txns, x.committed = false)
    (storage : Dict Checkpoint) :
    Restores effective txns storage (rolledBack effective ids txns storage).1
      (rolledBack effective ids txns storage).2 := by
  induction ids generalizing txns storage with
  | nil =>
    exact ⟨List.Sublist.refl _, fun _ _ => rfl, fun _ _ => rfl,
      fun x hx _ hgone => absurd hx hgone, fun _ h => h⟩
  | cons id ids ih =>
    rw [rolledBack]
    cases hfind : find txns id with
    | none => exact ih hids hopen storage
    | some txn =>
      obtain ⟨hmem, hid⟩ := find_some hfind
      have hsub : (remove txns id).Sublist txns := List.eraseP_sublist
      have hrest := ih (hids.remove id) (fun x hx => hopen x (hsub.subset hx))
        (discard effective txn storage)
      have hlookup : ∀ taskId, _ := @lookup_discard effective txn storage (hopen txn hmem)
      -- the transaction itself is gone, and any other that is gone was in the shorter list
      have hgone : txn ∉ (rolledBack effective ids (remove txns id)
          (discard effective txn storage)).1 := fun h =>
        ((mem_remove hids id txn).mp (hrest.sub.subset h)).2 hid
      have hother : ∀ x ∈ txns, x ≠ txn → x ∈ remove txns id := fun x hx hne =>
        (mem_remove hids id x).mpr ⟨hx, fun h => hne (hids.eq hx hmem (h.trans hid.symm))⟩
      refine ⟨hrest.sub.trans hsub, fun taskId hun => ?_, fun taskId heff => ?_,
        fun x hx hprepared hxgone heff => ?_, fun taskId hnone => ?_⟩
      · rw [hrest.untouched taskId fun x hx => hun x (hsub.subset hx), hlookup, if_neg]
        exact fun h => hun txn hmem h.1 hgone h.2.1
      · rw [hrest.kept taskId heff, hlookup, if_neg]
        simp [heff]
      · by_cases hxtxn : x = txn
        · refine hrest.none _ ?_
          rw [hlookup, if_pos ⟨hxtxn ▸ hprepared, hxtxn ▸ rfl, heff⟩]
        · exact hrest.deleted x (hother x hx hxtxn) hprepared hxgone heff
      · refine hrest.none _ ?_
        rw [hlookup]
        split
        · rfl
        · exact hnone

/-! ## The invariant -/

/-- What a call can do to the world, and answer. -/
def Call.Effect (P : Choice → Prop) (effective : String → Bool) (w : World)
    (r : Except Fault Bool) (v : World) : Call → Prop
  | .begin transactionId taskId position =>
    v = w ∨ ofId w.transactions transactionId = [] ∧ ∃ now, v = { w with
      transactions := w.transactions ++ [⟨transactionId, taskId, position, false, false, now⟩] }
  | .prepare transactionId => Prepared P transactionId w r v
  | .commit transactionId => CommitEffect transactionId w v
  | .rollback transactionId => RolledBack effective [transactionId] w v
  | .cleanup _ => ∃ ids, RolledBack effective ids w v

theorem wp_program {P : Choice → Prop} {effective : String → Bool}
    (hP : ∀ c, P c → ∀ taskId, (c.storage taskId).takesEffect = effective taskId) (call : Call)
    (w : World) :
    wp World.handler P (fun _ => True) call.program
      (fun r v => call.Effect P effective w r v) w := by
  cases call with
  | begin transactionId taskId position =>
    exact wp.bind (wp_begin transactionId taskId position) (fun _ _ _ h => ⟨trivial, h⟩)
      fun _ _ _ h => h
  | prepare transactionId => exact wp_prepare transactionId
  | commit transactionId =>
    exact wp.bind (wp_commit transactionId) (fun _ _ _ h => ⟨trivial, h.effect⟩)
      fun _ _ _ h => h.effect
  | rollback transactionId =>
    exact wp.bind (wp_rollback hP transactionId w) (fun _ _ _ h => ⟨trivial, h⟩) fun _ _ _ h => h
  | cleanup timeoutSecs =>
    exact wp.bind (wp_cleanup hP timeoutSecs w) (fun _ _ _ h => ⟨trivial, h⟩) fun _ _ _ h => h

theorem machine_effect {s s' : State} {l : Label} (hs : machine.step s l s') :
    ∃ r, l.call.Effect (l.Allows s.world) l.effective s.world r s'.world ∧
      s'.before = recordBefore s l.call r := by
  obtain ⟨r, hr, hbefore⟩ := hs
  exact ⟨r, (wp_iff.mp (wp_program (fun _ hc => hc.1) l.call s.world)).2 r _ hr, hbefore⟩

/-- The storage holds a record of the transaction's task that is not the one from before. -/
def Held (s : State) (x : CheckpointTransaction) : Prop :=
  ∃ before cp, s.before x.transactionId = some before ∧
    s.world.storage.lookup x.taskId = some cp ∧ cp.taskId = x.taskId ∧
    ∀ cp₀, before = some cp₀ → cp₀.id ≠ cp.id

structure Inv (s : State) : Prop where
  ids : DistinctIds s.world.transactions
  uncommitted : ∀ x ∈ s.world.transactions, x.committed = false
  tasks : ∀ x ∈ s.world.transactions, ∀ y ∈ s.world.transactions, x.prepared = true →
    y.prepared = true → x.taskId = y.taskId → x = y
  held : ∀ x ∈ s.world.transactions, x.prepared = true → Held s x

section

variable {s s' : State} {l : Label}

theorem Inv.init (h : s.world.transactions = []) : Inv s where
  ids := by simp [DistinctIds, h]
  uncommitted := by simp [h]
  tasks := by simp [h]
  held := by simp [h]

/-- A record stays held if the record put aside and the stored one stay. -/
theorem Held.same {x : CheckpointTransaction} (h : Held s x)
    (hbefore : s'.before x.transactionId = s.before x.transactionId)
    (hstored : s'.world.storage.lookup x.taskId = s.world.storage.lookup x.taskId) : Held s' x := by
  obtain ⟨before, cp, hb, hcp, hrest⟩ := h
  exact ⟨before, cp, hbefore.trans hb, hstored.trans hcp, hrest⟩

/-- Fewer transactions, and the records of those that are left. -/
theorem Inv.shrink (h : Inv s) (hsub : s'.world.transactions.Sublist s.world.transactions)
    (hheld : ∀ x ∈ s'.world.transactions, x.prepared = true → Held s x → Held s' x) : Inv s' where
  ids := h.ids.sublist (hsub.map _)
  uncommitted x hx := h.uncommitted x (hsub.subset hx)
  tasks x hx y hy := h.tasks x (hsub.subset hx) y (hsub.subset hy)
  held x hx hprepared := hheld x hx hprepared (h.held x (hsub.subset hx) hprepared)

theorem Inv.begin {transactionId taskId : String} {position : Position} {now : Nat} (h : Inv s)
    (hfree : ofId s.world.transactions transactionId = [])
    (hworld : s'.world = { s.world with transactions := s.world.transactions ++
      [⟨transactionId, taskId, position, false, false, now⟩] })
    (hbefore : s'.before = s.before) : Inv s' := by
  have hnew : ∀ x ∈ s.world.transactions, x.transactionId ≠ transactionId := by
    simpa [ofId, List.filter_eq_nil_iff] using hfree
  have hcases : ∀ x ∈ s'.world.transactions, x ∈ s.world.transactions ∨
      x = ⟨transactionId, taskId, position, false, false, now⟩ := by
    intro x hx
    rw [hworld] at hx
    simpa using hx
  have hprepared : ∀ x ∈ s'.world.transactions, x.prepared = true → x ∈ s.world.transactions := by
    rintro x hx hp
    rcases hcases x hx with hx | rfl
    · exact hx
    · cases hp
  refine ⟨?_, fun x hx => ?_, fun x hx y hy hxp hyp => ?_, fun x hx hxp => ?_⟩
  · rw [DistinctIds, hworld, List.map_append, List.nodup_append]
    refine ⟨h.ids, by simp, ?_⟩
    rintro id hid _ hlast rfl
    obtain ⟨x, hx, rfl⟩ := List.mem_map.mp hid
    exact hnew x hx (by simpa using hlast)
  · rcases hcases x hx with hx | rfl
    · exact h.uncommitted x hx
    · rfl
  · exact h.tasks x (hprepared x hx hxp) y (hprepared y hy hyp) hxp hyp
  · exact (h.held x (hprepared x hx hxp) hxp).same (by rw [hbefore]) (by rw [hworld])

/-- The task of a transaction that may be prepared has no prepared one. -/
theorem OnePrepared.ne {transactionId : String} {txn : CheckpointTransaction}
    (h : OnePrepared s l) (hinv : Inv s) (hl : l.call = .prepare transactionId)
    (hfind : find s.world.transactions transactionId = some txn)
    (hunprepared : txn.prepared = false)
    {x : CheckpointTransaction} (hx : x ∈ s.world.transactions) (hprepared : x.prepared = true) :
    x.taskId ≠ txn.taskId ∧ x.transactionId ≠ transactionId := by
  obtain ⟨hmem, hid⟩ := find_some hfind
  have hne : x.transactionId ≠ transactionId := by
    intro heq
    obtain rfl := hinv.ids.eq hx hmem (heq.trans hid.symm)
    simp [hunprepared] at hprepared
  exact ⟨fun htask => hne (h transactionId hl txn hfind x hx hprepared htask), hne⟩

theorem Inv.prepare_done {transactionId : String} {txn : CheckpointTransaction} {cp : Checkpoint}
    {c : Choice} (h : Inv s) (hok : OnePrepared s l) (hl : l.call = .prepare transactionId)
    (hfind : find s.world.transactions transactionId = some txn)
    (hunprepared : txn.prepared = false)
    (htask : cp.taskId = txn.taskId) (hc : l.Allows s.world c) (hid : cp.id = c.uuid)
    (hworld : s'.world = { s.world with
      storage := s.world.storage.insert cp.taskId cp
      transactions := markPrepared transactionId s.world.transactions })
    (hbefore : s'.before =
      Function.update s.before transactionId (some (s.world.storage.lookup txn.taskId))) :
    Inv s' := by
  obtain ⟨hmem, htxn⟩ := find_some hfind
  have hcases : ∀ x ∈ s'.world.transactions, x = { txn with prepared := true } ∨
      x ∈ s.world.transactions ∧ x.transactionId ≠ transactionId := by
    intro x hx
    rw [hworld] at hx
    exact mem_markPrepared h.ids hfind hx
  -- the condition on the step: no other prepared transaction is of this task
  have hothers : ∀ x ∈ s.world.transactions, x.prepared = true → x.taskId ≠ txn.taskId :=
    fun x hx hxp => (hok.ne h hl hfind hunprepared hx hxp).1
  refine ⟨?_, fun x hx => ?_, fun x hx y hy hxp hyp hsame => ?_, fun x hx hxp => ?_⟩
  · rw [DistinctIds, hworld, ids_markPrepared]
    exact h.ids
  · rcases hcases x hx with rfl | ⟨hx, -⟩
    · exact h.uncommitted txn hmem
    · exact h.uncommitted x hx
  · rcases hcases x hx with rfl | ⟨hx, -⟩ <;> rcases hcases y hy with rfl | ⟨hy, -⟩
    · rfl
    · exact absurd hsame.symm (hothers y hy hyp)
    · exact absurd hsame (hothers x hx hxp)
    · exact h.tasks x hx y hy hxp hyp hsame
  · rcases hcases x hx with rfl | ⟨hx, hne⟩
    · refine ⟨s.world.storage.lookup txn.taskId, cp, ?_, ?_, htask, fun cp₀ hcp₀ => ?_⟩
      · rw [hbefore]
        exact htxn ▸ Function.update_self ..
      · rw [hworld]
        exact htask ▸ AList.lookup_insert _
      · rw [hid]
        exact hc.2 _ cp₀ hcp₀
    · refine (h.held x hx hxp).same ?_ ?_
      · rw [hbefore, Function.update_of_ne hne]
      · rw [hworld]
        exact AList.lookup_insert_ne (htask ▸ hothers x hx hxp)

theorem Inv.prepare_failed {transactionId : String} {txn : CheckpointTransaction} {cp : Checkpoint}
    (h : Inv s) (hok : OnePrepared s l) (hl : l.call = .prepare transactionId)
    (hfind : find s.world.transactions transactionId = some txn)
    (hunprepared : txn.prepared = false)
    (htask : cp.taskId = txn.taskId)
    (hworld : s'.world = { s.world with storage := s.world.storage.insert cp.taskId cp })
    (hbefore : s'.before = s.before) : Inv s' := by
  have htxns : s'.world.transactions = s.world.transactions := by rw [hworld]
  refine h.shrink (by rw [htxns]) fun x hx hxp hheld => hheld.same (by rw [hbefore]) ?_
  rw [htxns] at hx
  rw [hworld]
  exact AList.lookup_insert_ne (htask ▸ (hok.ne h hl hfind hunprepared hx hxp).1)

theorem recordBefore_same {transactionId : String} {r : Except Fault Bool}
    (h : ∀ txn, r = .ok true → find s.world.transactions transactionId = some txn →
      txn.prepared = true) : recordBefore s (.prepare transactionId) r = s.before := by
  unfold recordBefore
  split
  · next hcall =>
    cases hcall
    split
    · next txn hfind => rw [if_pos (h txn rfl hfind)]
    · rfl
  · rfl

/-- A commit saves the record of the one prepared transaction of the task under its own id. -/
theorem Inv.commit {transactionId : String} (h : Inv s)
    (heffect : CommitEffect transactionId s.world s'.world) (hbefore : s'.before = s.before) :
    Inv s' := by
  generalize hw : s'.world = w' at heffect
  cases heffect with
  | nothing =>
    exact h.shrink (by rw [hw]) fun x _ _ hheld => hheld.same (by rw [hbefore]) (by rw [hw])
  | saved txn cp metadata gone hfind hprepared hcp =>
    obtain ⟨hmem, -⟩ := find_some hfind
    obtain ⟨_, cp', -, hcp', hkey, -⟩ := h.held txn hmem hprepared
    obtain rfl := Option.some.inj (hcp.symm.trans hcp')
    have hsub : s'.world.transactions.Sublist s.world.transactions := by
      rw [hw]
      cases gone
      · exact List.Sublist.refl _
      · exact List.eraseP_sublist
    refine h.shrink hsub fun x hx hxp hheld => ?_
    by_cases htask : x.taskId = txn.taskId
    · obtain rfl := h.tasks x (hsub.subset hx) txn hmem hxp hprepared htask
      obtain ⟨before, cp', hb, hcp', -, hfresh⟩ := hheld
      obtain rfl := Option.some.inj (hcp.symm.trans hcp')
      refine ⟨before, { cp with metadata }, by rw [hbefore]; exact hb, ?_, hkey, hfresh⟩
      rw [hw]
      exact hkey ▸ AList.lookup_insert _
    · refine hheld.same (by rw [hbefore]) ?_
      rw [hw]
      exact AList.lookup_insert_ne (hkey ▸ htask)

/-- A rollback leaves the records of the transactions that are left. -/
theorem Inv.rolledBack {effective : String → Bool} {ids : List String} (h : Inv s)
    (heffect : RolledBack effective ids s.world s'.world) (hbefore : s'.before = s.before) :
    Inv s' := by
  have hrestores := rolledBack_restores effective ids h.ids h.uncommitted s.world.storage
  have hsub : s'.world.transactions.Sublist s.world.transactions := by
    rw [heffect]
    exact hrestores.sub
  refine h.shrink hsub fun x hx hxp hheld => hheld.same (by rw [hbefore]) ?_
  have hx' := hx
  rw [heffect] at hx' ⊢
  refine hrestores.untouched x.taskId fun y hy hyp hgone htask => ?_
  obtain rfl := h.tasks y hy x (hsub.subset hx) hyp hxp htask
  exact hgone hx'

theorem Inv.step (h : Inv s) (hs : (machine.restrict OnePrepared).step s l s') : Inv s' := by
  obtain ⟨hok, hstep⟩ := hs
  obtain ⟨r, heffect, hbefore⟩ := machine_effect hstep
  cases hl : l.call with
  | begin transactionId taskId position =>
    rw [hl] at heffect hbefore
    rcases heffect with hsame | ⟨hfree, now, hworld⟩
    · exact h.shrink (by rw [hsame]) fun x _ _ hheld =>
        hheld.same (by rw [hbefore]; rfl) (by rw [hsame])
    · exact h.begin hfree hworld hbefore
  | prepare transactionId =>
    rw [hl] at heffect hbefore
    simp only [Call.Effect] at heffect
    generalize hw : s'.world = w' at heffect
    cases heffect with
    | nothing r hprepared =>
      refine h.shrink (by rw [hw]) fun x _ _ hheld => hheld.same ?_ (by rw [hw])
      rw [hbefore, recordBefore_same fun txn hr hfind => hprepared txn hr hfind]
    | done txn cp c hfind hunprepared htask hc hid =>
      refine h.prepare_done hok hl hfind hunprepared htask hc hid hw ?_
      simp [hbefore, recordBefore, hfind, hunprepared]
    | failed txn cp hfind hunprepared htask =>
      exact h.prepare_failed hok hl hfind hunprepared htask hw hbefore
  | commit transactionId =>
    rw [hl] at heffect hbefore
    exact h.commit heffect hbefore
  | rollback transactionId =>
    rw [hl] at heffect hbefore
    exact h.rolledBack heffect hbefore
  | cleanup timeoutSecs =>
    rw [hl] at heffect hbefore
    obtain ⟨ids, heffect⟩ := heffect
    exact h.rolledBack heffect hbefore

end

theorem reachable_inv {s : State} (h : (machine.restrict OnePrepared).Reachable s) : Inv s :=
  h.invariant (fun _ hs => Inv.init hs) fun _ _ _ hi hs => hi.step hs

/-! ## The guarantee -/

/-- The calls that roll transactions back. -/
def Call.RollsBack : Call → Prop
  | .rollback _ | .cleanup _ => True
  | _ => False

theorem restores_of_rollsBack {s s' : State} {l : Label}
    (h : (machine.restrict OnePrepared).Reachable s) (hl : l.call.RollsBack)
    (hs : machine.step s l s') :
    Restores l.effective s.world.transactions s.world.storage s'.world.transactions
      s'.world.storage := by
  have hinv := reachable_inv h
  have hrestores (ids : List String) (heffect : RolledBack l.effective ids s.world s'.world) :
      Restores l.effective s.world.transactions s.world.storage s'.world.transactions
        s'.world.storage := by
    rw [heffect]
    exact rolledBack_restores l.effective ids hinv.ids hinv.uncommitted s.world.storage
  obtain ⟨r, heffect, -⟩ := machine_effect hs
  cases hcall : l.call with
  | begin | prepare | commit =>
    rw [hcall] at hl
    cases hl
  | rollback transactionId =>
    rw [hcall] at heffect
    exact hrestores _ heffect
  | cleanup timeoutSecs =>
    rw [hcall] at heffect
    obtain ⟨ids, heffect⟩ := heffect
    exact hrestores ids heffect

/-- The call prepares, commits or rolls back the transaction. -/
def Concerns (s' : State) (l : Label) (txn : CheckpointTransaction) : Prop :=
  l.call = .prepare txn.transactionId ∨ l.call = .commit txn.transactionId ∨
    (txn.prepared = true ∧ txn ∉ s'.world.transactions)

/-- A call leaves the records of the tasks alone whose transactions it does not concern. -/
theorem record_frame {s s' : State} {l : Label}
    (h : (machine.restrict OnePrepared).Reachable s) (hs : machine.step s l s') (taskId : String)
    (hother : ∀ txn ∈ s.world.transactions, Concerns s' l txn → txn.taskId ≠ taskId) :
    s'.world.storage.lookup taskId = s.world.storage.lookup taskId := by
  have huntouched (hl : l.call.RollsBack) :
      s'.world.storage.lookup taskId = s.world.storage.lookup taskId :=
    (restores_of_rollsBack h hl hs).untouched taskId fun txn hmem hprepared hgone =>
      hother txn hmem (Or.inr (Or.inr ⟨hprepared, hgone⟩))
  obtain ⟨r, heffect, -⟩ := machine_effect hs
  cases hl : l.call with
  | begin transactionId other position =>
    rw [hl] at heffect
    rcases heffect with hsame | ⟨-, now, hworld⟩
    · rw [hsame]
    · rw [hworld]
  | prepare transactionId =>
    have hne (txn : CheckpointTransaction)
        (hfind : find s.world.transactions transactionId = some txn) : txn.taskId ≠ taskId := by
      obtain ⟨hmem, rfl⟩ := find_some hfind
      exact hother txn hmem (Or.inl hl)
    rw [hl] at heffect
    simp only [Call.Effect] at heffect
    generalize s'.world = w' at heffect
    cases heffect with
    | nothing => rfl
    | done txn cp c hfind hunprepared htask hc hid =>
      exact AList.lookup_insert_ne (htask ▸ (hne txn hfind).symm)
    | failed txn cp hfind hunprepared htask =>
      exact AList.lookup_insert_ne (htask ▸ (hne txn hfind).symm)
  | commit transactionId =>
    rw [hl] at heffect
    simp only [Call.Effect] at heffect
    generalize s'.world = w' at heffect
    cases heffect with
    | nothing => rfl
    | saved txn cp metadata gone hfind hprepared hcp =>
      obtain ⟨hmem, rfl⟩ := find_some hfind
      -- the record that is loaded is under its own task, so that is where it is saved
      obtain ⟨_, cp', -, hcp', hkey, -⟩ := (reachable_inv h).held txn hmem hprepared
      obtain rfl := Option.some.inj (hcp.symm.trans hcp')
      exact AList.lookup_insert_ne (hkey ▸ (hother txn hmem (Or.inr (Or.inl hl))).symm)
  | rollback transactionId => exact huntouched (hl ▸ trivial)
  | cleanup timeoutSecs => exact huntouched (hl ▸ trivial)

/-- **A rolled back task has the record it had before `prepare` exactly when it had none and the
deletion takes effect**; and no call touches the record of a task none of whose transactions it
concerns. -/
theorem rollback_restores_iff {s s' : State} {l : Label}
    (h : (machine.restrict OnePrepared).Reachable s) (hs : machine.step s l s') :
    (l.call.RollsBack → ∀ txn ∈ s.world.transactions, txn.prepared = true →
      txn ∉ s'.world.transactions → ∃ before, s.before txn.transactionId = some before ∧
        (s'.world.storage.lookup txn.taskId = before ↔
          before = none ∧ l.effective txn.taskId = true)) ∧
    ∀ taskId, (∀ txn ∈ s.world.transactions, Concerns s' l txn → txn.taskId ≠ taskId) →
      s'.world.storage.lookup taskId = s.world.storage.lookup taskId := by
  refine ⟨fun hl txn hmem hprepared hgone => ?_, record_frame h hs⟩
  have hrestores := restores_of_rollsBack h hl hs
  obtain ⟨before, cp, hbefore, hcp, -, hfresh⟩ := (reachable_inv h).held txn hmem hprepared
  refine ⟨before, hbefore, ?_⟩
  cases heff : l.effective txn.taskId with
  | true =>
    rw [hrestores.deleted txn hmem hprepared hgone heff]
    simp [eq_comm]
  | false =>
    rw [hrestores.kept txn.taskId heff, hcp]
    refine iff_of_false (fun heq => ?_) (by simp)
    exact hfresh cp heq.symm rfl

/-! ### A task with an earlier checkpoint -/

/-- The state after a call in which the environment decides `c` throughout. -/
def State.after (s : State) (c : Choice) (call : Call) : State :=
  let (r, w) := eval World.handler c call.program s.world
  ⟨w, recordBefore s call r⟩

/-- Every call succeeds, and every identifier is this one. -/
def succeeding (uuid : String) : Choice :=
  ⟨0, uuid, fun _ => .succeeds, .succeeds, fun _ => ⟨.dropped, []⟩⟩

/-- No record of the storage has this identifier. -/
def FreshFor (uuid : String) (storage : Dict Checkpoint) : Prop :=
  ∀ taskId cp, storage.lookup taskId = some cp → cp.id ≠ uuid

theorem FreshFor.insert {uuid : String} {storage : Dict Checkpoint} (h : FreshFor uuid storage)
    (taskId : String) {cp : Checkpoint} (hcp : cp.id ≠ uuid) :
    FreshFor uuid (storage.insert taskId cp) := by
  intro other cp' hlookup
  by_cases htask : other = taskId
  · subst htask
    rw [AList.lookup_insert] at hlookup
    exact Option.some.inj hlookup ▸ hcp
  · rw [AList.lookup_insert_ne htask] at hlookup
    exact h other cp' hlookup

theorem machine_after {s : State} {uuid : String} (call : Call)
    (hfresh : FreshFor uuid s.world.storage) :
    machine.step s ⟨call, fun _ => true⟩ (s.after (succeeding uuid) call) :=
  ⟨_, runs_eval ⟨fun _ => rfl, hfresh⟩ _ _, rfl⟩

/-- This storage, and nothing going on. -/
def stored (storage : Dict Checkpoint) : State :=
  ⟨⟨storage, [], .new 100, .new 30, true, ∅, ∅, []⟩, fun _ => none⟩

/-- A transaction of the task `books`, begun and prepared. -/
def bookPrepared (storage : Dict Checkpoint) : State :=
  ((stored storage).after (succeeding "7e1") (.begin "t1" "books" (.postgreSQL "0/20"))).after
    (succeeding "7e1") (.prepare "t1")

def bookRolledBack (storage : Dict Checkpoint) : State :=
  (bookPrepared storage).after (succeeding "8f2") (.rollback "t1")

def bookTransaction : CheckpointTransaction := ⟨"t1", "books", .postgreSQL "0/20", true, false, 0⟩

theorem reachable_bookPrepared {storage : Dict Checkpoint} (hfresh : FreshFor "7e1" storage) :
    (machine.restrict OnePrepared).Reachable (bookPrepared storage) := by
  have hstart : (machine.restrict OnePrepared).Reachable (stored storage) :=
    .init (show (stored storage).world.transactions = [] from rfl)
  have hbegin := machine_after (s := stored storage)
    (.begin "t1" "books" (.postgreSQL "0/20")) hfresh
  have hprepare := machine_after (s := (stored storage).after (succeeding "7e1")
    (.begin "t1" "books" (.postgreSQL "0/20"))) (.prepare "t1") hfresh
  have hother : OnePrepared (stored storage)
      ⟨.begin "t1" "books" (.postgreSQL "0/20"), fun _ => true⟩ := by
    intro _ h
    cases h
  refine (hstart.step ⟨hother, hbegin⟩).step ⟨?_, hprepare⟩
  intro transactionId _ txn _ other hother hprepared
  obtain rfl := List.mem_singleton.mp hother
  cases hprepared

theorem machine_bookRolledBack {storage : Dict Checkpoint} (hfresh : FreshFor "8f2" storage) :
    machine.step (bookPrepared storage) ⟨.rollback "t1", fun _ => true⟩ (bookRolledBack storage) :=
  machine_after _ (hfresh.insert "books" (show "7e1" ≠ "8f2" by decide))

/-- Without an earlier checkpoint the rollback restores the storage. -/
theorem rollback_restores_iff_book :
    (bookRolledBack ∅).world.storage.lookup "books" = none := by
  have hfresh (uuid : String) : FreshFor uuid ∅ := fun _ _ h => nomatch h
  obtain ⟨hrestores, -⟩ := rollback_restores_iff (reachable_bookPrepared (hfresh _))
    (machine_bookRolledBack (hfresh _))
  obtain ⟨before, hbefore, hiff⟩ :=
    hrestores trivial bookTransaction (by decide) rfl (by decide)
  obtain rfl : none = before := Option.some.inj hbefore
  exact hiff.mpr ⟨rfl, rfl⟩

/-- An earlier checkpoint of the task. -/
def bookCheckpoint : Checkpoint := ⟨"3c9", "books", .postgreSQL "0/10", 0, .object []⟩

/-- The rollback deletes a record that has taken the place of an earlier one. -/
theorem rollback_not_always_restores : ¬ ∀ (s s' : State) (l : Label),
    (machine.restrict OnePrepared).Reachable s → l.call.RollsBack → machine.step s l s' →
    ∀ txn ∈ s.world.transactions, txn.prepared = true → txn ∉ s'.world.transactions →
      ∀ before, s.before txn.transactionId = some before →
        s'.world.storage.lookup txn.taskId = before := by
  intro h
  have hfresh (uuid : String) (huuid : bookCheckpoint.id ≠ uuid) :
      FreshFor uuid (AList.insert "books" bookCheckpoint ∅) := by
    refine FreshFor.insert (fun _ _ hnone => ?_) _ huuid
    cases hnone
  have hrestored := h _ _ ⟨.rollback "t1", fun _ => true⟩
    (reachable_bookPrepared (hfresh _ (by decide))) trivial
    (machine_bookRolledBack (hfresh _ (by decide))) bookTransaction (by decide) rfl (by decide)
    (some bookCheckpoint) (by decide)
  exact absurd hrestored (by decide)

end TransactionalCheckpoint

end MeiliBridge
