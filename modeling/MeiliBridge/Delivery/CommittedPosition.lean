import MeiliBridge.Checkpoint.Manager
import MeiliBridge.Delivery.Rollback

/-!
# The position a committed checkpoint carries

`commit` loads whatever record the storage holds for its task and saves it again under its own
mark. The mutex of `TransactionalCheckpoint` keeps the other methods out meanwhile, but not what
has been prepared before, and not the flushes of the checkpoint manager, which share the storage
and can save a record between any two operations. The record that is marked committed carries the
position of its transaction in every run in which whatever is written over a prepared transaction
agrees with it (`committed_carries_position`); a flush or a second prepared transaction of the task
that does not agree is committed under the wrong name.
-/

set_option autoImplicit false

namespace MeiliBridge

open Interaction Trans

namespace CommittedPosition

open TransactionalCheckpoint (Call Txns find remove markPrepared DistinctIds preparedMetadata
  committedMetadata preparedCheckpoint)

/-! ## The flushes of the checkpoint manager -/

/-- The storage after these records have been saved one after the other. -/
def saveAll : List Checkpoint → Dict Checkpoint → Dict Checkpoint
  | [], storage => storage
  | cp :: cps, storage => saveAll cps (storage.insert cp.taskId cp)

/-- A record as a `Save` command builds it -/
def Buffered (cp : Checkpoint) : Prop :=
  ∃ c taskId position, cp = CheckpointManager.newCheckpoint c taskId position

/-- What is in the storage after a flush was there before or has been flushed. -/
theorem lookup_saveAll {cps : List Checkpoint} {storage : Dict Checkpoint} {taskId : String}
    {cp : Checkpoint} (h : (saveAll cps storage).lookup taskId = some cp) :
    storage.lookup taskId = some cp ∨ cp ∈ cps ∧ cp.taskId = taskId := by
  induction cps generalizing storage with
  | nil => exact Or.inl h
  | cons head cps ih =>
    rcases ih h with hbefore | ⟨hmem, htask⟩
    · by_cases htask : taskId = head.taskId
      · subst htask
        rw [AList.lookup_insert] at hbefore
        obtain rfl := Option.some.inj hbefore
        exact Or.inr ⟨List.mem_cons_self, rfl⟩
      · rw [AList.lookup_insert_ne htask] at hbefore
        exact Or.inl hbefore
    · exact Or.inr ⟨List.mem_cons_of_mem _ hmem, htask⟩

/-- A record of the storage is still there after a flush, or has been overwritten. -/
theorem exists_lookup_saveAll (cps : List Checkpoint) {storage : Dict Checkpoint}
    {taskId : String} {cp : Checkpoint} (h : storage.lookup taskId = some cp) :
    ∃ cp', (saveAll cps storage).lookup taskId = some cp' ∧ (cp' = cp ∨ cp' ∈ cps) := by
  induction cps generalizing storage cp with
  | nil => exact ⟨cp, h, Or.inl rfl⟩
  | cons head cps ih =>
    by_cases htask : taskId = head.taskId
    · subst htask
      obtain ⟨cp', hcp', heq | hmem⟩ := ih (AList.lookup_insert storage)
      · exact ⟨cp', hcp', Or.inr (heq ▸ List.mem_cons_self)⟩
      · exact ⟨cp', hcp', Or.inr (List.mem_cons_of_mem _ hmem)⟩
    · obtain ⟨cp', hcp', heq | hmem⟩ := ih ((AList.lookup_insert_ne htask).trans h)
      · exact ⟨cp', hcp', Or.inl heq⟩
      · exact ⟨cp', hcp', Or.inr (List.mem_cons_of_mem _ hmem)⟩

/-! ## The runs -/

/-- What the callers know: what they have given to `begin_transaction` under each id, and whether
that transaction has been committed. -/
structure History where
  begun : String → Option (String × Position)
  committed : String → Bool

/-- The history after a call. -/
def History.after (h : History) : Call → Except Fault Bool → History
  | .begin transactionId taskId position, .ok _ =>
    ⟨Function.update h.begun transactionId (some (taskId, position)),
      Function.update h.committed transactionId false⟩
  | .commit transactionId, .ok _ =>
    { h with committed := Function.update h.committed transactionId true }
  | _, _ => h

section

variable (h : History) (transactionId taskId : String) (position : Position) (answer : Bool)

theorem begun_begin : (h.after (.begin transactionId taskId position) (.ok answer)).begun =
    Function.update h.begun transactionId (some (taskId, position)) := rfl

theorem committed_begin : (h.after (.begin transactionId taskId position) (.ok answer)).committed =
    Function.update h.committed transactionId false := rfl

theorem committed_commit : (h.after (.commit transactionId) (.ok answer)).committed =
    Function.update h.committed transactionId true := rfl

end

structure State where
  world : World
  history : History

inductive Action where
  | call (call : Call) (answer : Except Fault Bool)
  | flush

/-- What happens, and the records the manager may save in the course of it. -/
structure Label where
  action : Action
  flushed : List Checkpoint

/-- The world after the manager has saved these records. -/
def flush (cps : List Checkpoint) (w : World) : World :=
  { w with storage := saveAll cps w.storage }

@[simp] theorem transactions_flush (cps : List Checkpoint) (w : World) :
    (flush cps w).transactions = w.transactions := rfl

@[simp] theorem storage_flush (cps : List Checkpoint) (w : World) :
    (flush cps w).storage = saveAll cps w.storage := rfl

/-- After an operation, some of the records are flushed. -/
def Meanwhile (flushed : List Checkpoint) (c : Choice × (World → World)) : Prop :=
  ∃ cps, cps ⊆ flushed ∧ c.2 = flush cps

/-- Any records in the storage, no transaction yet, and then calls and flushes in any order. -/
def machine : Machine State Label where
  init s := s.world.transactions = [] ∧ (∀ id, s.history.committed id = false) ∧
    ∀ taskId cp, s.world.storage.lookup taskId = some cp → cp.taskId = taskId
  step s l s' := (∀ cp ∈ l.flushed, Buffered cp) ∧
    match l.action with
    | .call call answer =>
      Runs World.handler.shared (Meanwhile l.flushed) call.program s.world answer s'.world ∧
        s'.history = s.history.after call answer
    | .flush => s' = { s with world := flush l.flushed s.world }

/-- The record bears the mark of this transaction's commit. -/
def MarkedCommitted (transactionId : String) (cp : Checkpoint) : Prop :=
  ∃ now, cp.metadata = committedMetadata transactionId now

/-- The record marked committed under the id of a committed transaction has the position that was
given to its `begin_transaction`. -/
def CarriesPosition (s : State) : Prop :=
  ∀ id taskId position, s.history.begun id = some (taskId, position) →
    s.history.committed id = true → ∀ cp, s.world.storage.lookup taskId = some cp →
      MarkedCommitted id cp → cp.position = position

/-- The step is this call, whatever it answers. -/
def Label.Calls (l : Label) (call : Call) : Prop := ∃ answer, l.action = .call call answer

/-- What is flushed, and what is saved by a `prepare`, has the position of every prepared
transaction of the task; a flush in the course of a `prepare` has the position of that transaction
as well. -/
structure Agreeing (s : State) (l : Label) : Prop where
  flushed : ∀ txn ∈ s.world.transactions, txn.prepared = true ∨
    l.Calls (.prepare txn.transactionId) →
    ∀ cp ∈ l.flushed, cp.taskId = txn.taskId → cp.position = txn.position
  prepare : ∀ transactionId, l.Calls (.prepare transactionId) →
    ∀ txn, find s.world.transactions transactionId = some txn →
      ∀ other ∈ s.world.transactions, other.prepared = true → other.taskId = txn.taskId →
        other.position = txn.position

/-! ## The invariant -/

/-- Every record of the storage meets `F`. -/
def Every (F : String → Checkpoint → Prop) (storage : Dict Checkpoint) : Prop :=
  ∀ taskId cp, storage.lookup taskId = some cp → F taskId cp

section

variable {F G : String → Checkpoint → Prop} {storage : Dict Checkpoint}

theorem Every.mono (h : Every F storage) (hFG : ∀ taskId cp, F taskId cp → G taskId cp) :
    Every G storage :=
  fun taskId cp hcp => hFG taskId cp (h taskId cp hcp)

theorem Every.and (hF : Every F storage) (hG : Every G storage) :
    Every (fun taskId cp => F taskId cp ∧ G taskId cp) storage :=
  fun taskId cp hcp => ⟨hF taskId cp hcp, hG taskId cp hcp⟩

theorem Every.insert (h : Every F storage) {cp : Checkpoint} (hcp : F cp.taskId cp) :
    Every F (storage.insert cp.taskId cp) := by
  intro taskId cp' hlookup
  by_cases htask : taskId = cp.taskId
  · subst htask
    rw [AList.lookup_insert] at hlookup
    exact Option.some.inj hlookup ▸ hcp
  · rw [AList.lookup_insert_ne htask] at hlookup
    exact h taskId cp' hlookup

theorem Every.erase (h : Every F storage) (taskId : String) : Every F (storage.erase taskId) := by
  intro other cp hlookup
  by_cases htask : other = taskId
  · subst htask
    simp [AList.lookup_erase] at hlookup
  · rw [AList.lookup_erase_ne htask] at hlookup
    exact h other cp hlookup

theorem Every.saveAll (h : Every F storage) {cps : List Checkpoint}
    (hcps : ∀ cp ∈ cps, F cp.taskId cp) : Every F (saveAll cps storage) := by
  intro taskId cp hlookup
  rcases lookup_saveAll hlookup with hbefore | ⟨hmem, rfl⟩
  · exact h taskId cp hbefore
  · exact hcps cp hmem

end

/-- The record may stand for each of these transactions that is prepared, and for the task's
committed ones whose mark it bears. -/
structure Fits (h : History) (txns : Txns) (taskId : String) (cp : Checkpoint) : Prop where
  key : cp.taskId = taskId
  prepared : ∀ txn ∈ txns, txn.prepared = true → txn.taskId = taskId → cp.position = txn.position
  marked : ∀ id position, h.begun id = some (taskId, position) → h.committed id = true →
    MarkedCommitted id cp → cp.position = position

structure Inv (h : History) (w : World) : Prop where
  ids : DistinctIds w.transactions
  begun : ∀ txn ∈ w.transactions, h.begun txn.transactionId = some (txn.taskId, txn.position)
  uncommitted : ∀ txn ∈ w.transactions,
    txn.committed = false ∧ h.committed txn.transactionId = false
  records : Every (Fits h w.transactions) w.storage

theorem Inv.carries {s : State} (h : Inv s.history s.world) : CarriesPosition s :=
  fun id taskId position hbegun hcommitted cp hcp hmarked =>
    (h.records taskId cp hcp).marked id position hbegun hcommitted hmarked

/-- What the manager saves while these transactions are in the list. -/
def Harmless (flushed : List Checkpoint) (txns : Txns) : Prop :=
  ∀ cp ∈ flushed, Buffered cp ∧
    ∀ txn ∈ txns, txn.prepared = true → txn.taskId = cp.taskId → cp.position = txn.position

theorem not_marked_of_metadata {id : String} {cp : Checkpoint} {metadata : Value}
    (hcp : cp.metadata = metadata) (hne : ∀ now, metadata ≠ committedMetadata id now) :
    ¬ MarkedCommitted id cp := by
  intro hmarked
  obtain ⟨now, hnow⟩ := hmarked
  exact hne now (hcp.symm.trans hnow)

theorem Buffered.not_marked {cp : Checkpoint} (h : Buffered cp) (id : String) :
    ¬ MarkedCommitted id cp := by
  obtain ⟨c, taskId, position, rfl⟩ := h
  have hnull : ∀ now, Value.null ≠ committedMetadata id now := fun now heq => by cases heq
  exact not_marked_of_metadata rfl hnull

theorem not_marked_preparedCheckpoint (txn : CheckpointTransaction)
    (transactionId uuid : String) (now : Nat) (id : String) :
    ¬ MarkedCommitted id (preparedCheckpoint txn transactionId uuid now) := by
  have hprepared : ∀ now, preparedMetadata transactionId ≠ committedMetadata id now := by
    intro now heq
    simp [preparedMetadata, committedMetadata] at heq
  exact not_marked_of_metadata rfl hprepared

theorem marked_eq {id id' : String} {now : Nat} {cp : Checkpoint}
    (hcp : cp.metadata = committedMetadata id' now) (h : MarkedCommitted id cp) : id = id' := by
  obtain ⟨now', hnow⟩ := h
  have heq := hcp.symm.trans hnow
  simp only [committedMetadata, Value.object.injEq, List.cons.injEq, Prod.mk.injEq,
    Value.string.injEq] at heq
  exact heq.2.2.2.1.2.symm

section

variable {h : History} {w : World} {flushed cps : List Checkpoint}

theorem Harmless.fits (hflushed : Harmless flushed w.transactions) {cp : Checkpoint}
    (hcp : cp ∈ flushed) : Fits h w.transactions cp.taskId cp where
  key := rfl
  prepared := (hflushed cp hcp).2
  marked id _ _ _ hmarked := absurd hmarked ((hflushed cp hcp).1.not_marked id)

theorem Harmless.mono {txns txns' : Txns} (hflushed : Harmless flushed txns)
    (hsub : txns' ⊆ txns) : Harmless flushed txns' :=
  fun cp hcp => ⟨(hflushed cp hcp).1, fun txn htxn => (hflushed cp hcp).2 txn (hsub htxn)⟩

theorem Inv.flush (hi : Inv h w) (hflushed : Harmless flushed w.transactions)
    (hcps : cps ⊆ flushed) : Inv h (flush cps w) :=
  ⟨hi.ids, hi.begun, hi.uncommitted, hi.records.saveAll fun _ hcp => hflushed.fits (hcps hcp)⟩

theorem Fits.mono {txns txns' : Txns} {taskId : String} {cp : Checkpoint}
    (hfits : Fits h txns taskId cp) (hsub : txns' ⊆ txns) : Fits h txns' taskId cp :=
  ⟨hfits.key, fun txn htxn => hfits.prepared txn (hsub htxn), hfits.marked⟩

/-- A record that fits goes on doing so under the mark of a transaction that is not committed. -/
theorem Fits.relabel {txns : Txns} {taskId id : String} {cp : Checkpoint} {now : Nat}
    (hfits : Fits h txns taskId cp) (hid : h.committed id = false) :
    Fits h txns taskId { cp with metadata := committedMetadata id now } where
  key := hfits.key
  prepared := hfits.prepared
  marked id' _ _ hcommitted hmarked := by
    obtain rfl := marked_eq rfl hmarked
    rw [hid] at hcommitted
    cases hcommitted

/-- Fewer transactions -/
theorem Inv.sublist (hi : Inv h w) {txns : Txns} (hsub : txns.Sublist w.transactions) :
    Inv h { w with transactions := txns } where
  ids := List.Nodup.sublist (hsub.map _) hi.ids
  begun txn htxn := hi.begun txn (hsub.subset htxn)
  uncommitted txn htxn := hi.uncommitted txn (hsub.subset htxn)
  records := hi.records.mono fun _ _ hfits => hfits.mono hsub.subset

theorem Inv.save (hi : Inv h w) {cp : Checkpoint} (hcp : Fits h w.transactions cp.taskId cp) :
    Inv h { w with storage := w.storage.insert cp.taskId cp } :=
  ⟨hi.ids, hi.begun, hi.uncommitted, hi.records.insert hcp⟩

theorem Inv.delete (hi : Inv h w) (taskId : String) :
    Inv h { w with storage := w.storage.erase taskId } :=
  ⟨hi.ids, hi.begun, hi.uncommitted, hi.records.erase taskId⟩

end

/-! ## What each call preserves -/

section

variable {h : History} {w : World} {flushed : List Checkpoint}

theorem Inv.begin (hi : Inv h w) {transactionId taskId : String} {position : Position} {now : Nat}
    (hfree : ∀ txn ∈ w.transactions, txn.transactionId ≠ transactionId) (answer : Bool) :
    Inv (h.after (.begin transactionId taskId position) (.ok answer)) { w with
      transactions := w.transactions ++
        [⟨transactionId, taskId, position, false, false, now⟩] } where
  ids := by
    have hnot : transactionId ∉ w.transactions.map (·.transactionId) := by
      simpa using hfree
    have hids : (w.transactions.map (·.transactionId)).Nodup := hi.ids
    simpa [DistinctIds, List.nodup_append] using ⟨hids, fun x hx heq => hfree x hx heq⟩
  begun txn htxn := by
    rcases List.mem_append.mp htxn with hold | hnew
    · rw [begun_begin, Function.update_of_ne (hfree txn hold)]
      exact hi.begun txn hold
    · obtain rfl := List.mem_singleton.mp hnew
      exact Function.update_self ..
  uncommitted txn htxn := by
    rcases List.mem_append.mp htxn with hold | hnew
    · rw [committed_begin, Function.update_of_ne (hfree txn hold)]
      exact hi.uncommitted txn hold
    · obtain rfl := List.mem_singleton.mp hnew
      exact ⟨rfl, Function.update_self ..⟩
  records := by
    refine hi.records.mono fun task cp hfits => ⟨hfits.key, fun txn htxn hprepared => ?_, ?_⟩
    · rcases List.mem_append.mp htxn with hold | hnew
      · exact hfits.prepared txn hold hprepared
      · obtain rfl := List.mem_singleton.mp hnew
        cases hprepared
    · intro id p hbegun hcommitted
      -- the new transaction is uncommitted, so no record can carry its position yet
      by_cases hid : id = transactionId
      · subst hid
        simp [committed_begin] at hcommitted
      · rw [begun_begin, Function.update_of_ne hid] at hbegun
        rw [committed_begin, Function.update_of_ne hid] at hcommitted
        exact hfits.marked id p hbegun hcommitted

theorem Inv.prepared (hi : Inv h w) {transactionId : String} {txn : CheckpointTransaction}
    (hfind : find w.transactions transactionId = some txn)
    (hheld : Every (fun taskId cp => taskId = txn.taskId → cp.position = txn.position) w.storage) :
    Inv h { w with transactions := markPrepared transactionId w.transactions } := by
  have hmem : ∀ x ∈ markPrepared transactionId w.transactions,
      x = { txn with prepared := true } ∨ x ∈ w.transactions := fun x hx =>
    (TransactionalCheckpoint.mem_markPrepared hi.ids hfind hx).imp_right And.left
  have htxn := (TransactionalCheckpoint.find_some hfind).1
  refine ⟨?_, fun x hx => ?_, fun x hx => ?_, ?_⟩
  · rw [DistinctIds, TransactionalCheckpoint.ids_markPrepared]
    exact hi.ids
  · rcases hmem x hx with rfl | hold
    · exact hi.begun txn htxn
    · exact hi.begun x hold
  · rcases hmem x hx with rfl | hold
    · exact hi.uncommitted txn htxn
    · exact hi.uncommitted x hold
  · refine (hi.records.and hheld).mono fun taskId cp hcp => ⟨hcp.1.key, ?_, hcp.1.marked⟩
    intro x hx hprepared htask
    rcases hmem x hx with rfl | hold
    · exact hcp.2 htask.symm
    · exact hcp.1.prepared x hold hprepared htask

/-- What agrees with a transaction that is being prepared is as harmless when it has been. -/
theorem Harmless.prepared (hi : Inv h w) (hflushed : Harmless flushed w.transactions)
    {transactionId : String} {txn : CheckpointTransaction}
    (hfind : find w.transactions transactionId = some txn)
    (hown : ∀ cp ∈ flushed, cp.taskId = txn.taskId → cp.position = txn.position) :
    Harmless flushed (markPrepared transactionId w.transactions) := by
  intro cp hcp
  refine ⟨(hflushed cp hcp).1, fun x hx hprepared htask => ?_⟩
  rcases TransactionalCheckpoint.mem_markPrepared hi.ids hfind hx with rfl | ⟨hold, -⟩
  · exact hown cp hcp htask.symm
  · exact (hflushed cp hcp).2 x hold hprepared htask

theorem Inv.committed (hi : Inv h w) {transactionId : String} {txn : CheckpointTransaction}
    (hfind : find w.transactions transactionId = some txn) (hprepared : txn.prepared = true)
    (answer : Bool) :
    Inv (h.after (.commit transactionId) (.ok answer))
      { w with transactions := remove w.transactions transactionId } := by
  obtain ⟨htxn, hid⟩ := TransactionalCheckpoint.find_some hfind
  have hsub : (remove w.transactions transactionId).Sublist w.transactions := List.eraseP_sublist
  refine ⟨hi.ids.remove _, fun x hx => hi.begun x (hsub.subset hx), fun x hx => ?_, ?_⟩
  · obtain ⟨hold, hne⟩ := (TransactionalCheckpoint.mem_remove hi.ids _ x).mp hx
    rw [committed_commit, Function.update_of_ne hne]
    exact hi.uncommitted x hold
  · refine hi.records.mono fun taskId cp hfits => ?_
    refine ⟨hfits.key, fun x hx => hfits.prepared x (hsub.subset hx), fun id position => ?_⟩
    intro hbegun hcommitted hmarked
    by_cases heq : id = transactionId
    · -- the record of this task has the position of the prepared transaction
      have hgiven := (hi.begun txn htxn).symm.trans (hid ▸ heq ▸ hbegun)
      simp only [Option.some.injEq, Prod.mk.injEq] at hgiven
      rw [← hgiven.2]
      exact hfits.prepared txn htxn hprepared hgiven.1
    · rw [committed_commit, Function.update_of_ne heq] at hcommitted
      exact hfits.marked id position hbegun hcommitted hmarked

/-- One operation, after which the manager saves some of the records. -/
theorem wp_op {o : Op} {Q : Except Fault o.Ans → World → Prop}
    (hQ : ∀ c cps, cps ⊆ flushed → Q (.ok (w.exec c o).1) (flush cps (w.exec c o).2)) :
    wp World.handler.shared (Meanwhile flushed) (fun _ => True) (.perform o) Q w := by
  refine ⟨trivial, fun c hc => ⟨trivial, ?_⟩⟩
  obtain ⟨cps, hcps, heq⟩ := hc
  simp only [Handler.shared, heq]
  exact hQ c.1 cps hcps

theorem wp_begin (hi : Inv h w) (hflushed : Harmless flushed w.transactions)
    (transactionId taskId : String) (position : Position) :
    wp World.handler.shared (Meanwhile flushed) (fun _ => True)
      (Call.begin transactionId taskId position).program
      (fun r v => Inv (h.after (.begin transactionId taskId position) r) v) w := by
  refine wp_bind.mpr (wp_bind.mpr (wp_op fun c cps hcps => ?_))
  by_cases hany : w.transactions.any (·.transactionId = transactionId) = true
  · simp only [World.exec, hany, if_true]
    exact ⟨trivial, hi.flush hflushed hcps⟩
  · simp only [World.exec, hany]
    refine wp_bind.mpr (wp_op fun c₁ cps₁ hcps₁ => wp_op fun c₂ cps₂ hcps₂ => ⟨trivial, ?_⟩)
    have hfree : ∀ txn ∈ w.transactions, txn.transactionId ≠ transactionId := by
      simpa using hany
    have hi₁ : Inv h (flush cps₁ (flush cps w)) := (hi.flush hflushed hcps).flush hflushed hcps₁
    refine (hi₁.begin hfree false).flush (fun cp hcp => ?_) hcps₂
    refine ⟨(hflushed cp hcp).1, fun x hx hxp => ?_⟩
    rcases List.mem_append.mp hx with hold | hnew
    · exact (hflushed cp hcp).2 x hold hxp
    · obtain rfl := List.mem_singleton.mp hnew
      cases hxp

theorem wp_prepare (hi : Inv h w) (hflushed : Harmless flushed w.transactions)
    (transactionId : String)
    (hown : ∀ txn, find w.transactions transactionId = some txn → ∀ cp ∈ flushed,
      cp.taskId = txn.taskId → cp.position = txn.position)
    (hothers : ∀ txn, find w.transactions transactionId = some txn →
      ∀ other ∈ w.transactions, other.prepared = true → other.taskId = txn.taskId →
        other.position = txn.position) :
    wp World.handler.shared (Meanwhile flushed) (fun _ => True)
      (Call.prepare transactionId).program
      (fun r v => Inv (h.after (.prepare transactionId) r) v) w := by
  refine wp_bind.mpr (wp_op fun c cps hcps => ?_)
  have hi₀ : Inv h (flush cps w) := hi.flush hflushed hcps
  simp only [World.exec]
  cases hfind : find w.transactions transactionId with
  | none => exact ⟨trivial, hi₀⟩
  | some txn =>
    by_cases hprepared : txn.prepared = true
    · simp only [hprepared, if_true]
      exact ⟨trivial, hi₀⟩
    · simp only [hprepared]
      refine wp_bind.mpr (wp_op fun c₁ cps₁ hcps₁ => ?_)
      refine wp_bind.mpr (wp_op fun c₂ cps₂ hcps₂ => ?_)
      refine wp_bind.mpr (wp_op fun c₃ cps₃ hcps₃ => ?_)
      set cp := preparedCheckpoint txn transactionId c₁.uuid c₂.now
      set w₂ := flush cps₂ (flush cps₁ (flush cps w))
      have hi₂ : Inv h w₂ := (hi₀.flush hflushed hcps₁).flush hflushed hcps₂
      have hsaved : Inv h { w₂ with storage := w₂.storage.insert cp.taskId cp } := by
        refine hi₂.save ⟨rfl, fun other hother hop htask => ?_, fun id _ _ _ hmarked => ?_⟩
        · exact (hothers txn hfind other hother hop htask).symm
        · exact absurd hmarked (not_marked_preparedCheckpoint txn transactionId c₁.uuid c₂.now id)
      simp only [World.exec]
      cases c₃.storage cp.taskId with
      | fails e applied =>
        cases applied with
        | true => exact ⟨trivial, hsaved.flush hflushed hcps₃⟩
        | false => exact ⟨trivial, hi₂.flush hflushed hcps₃⟩
      | succeeds =>
        refine wp_bind.mpr (wp_op fun c₄ cps₄ hcps₄ => ⟨trivial, ?_⟩)
        refine ((hsaved.flush hflushed hcps₃).prepared hfind fun task cp' hcp' htask => ?_).flush
          (hflushed.prepared hi hfind (hown txn hfind)) hcps₄
        -- the record of the task is the one just saved, or one flushed after it
        subst htask
        rcases lookup_saveAll hcp' with hsame | ⟨hmem, htask⟩
        · obtain rfl : cp = cp' := Option.some.inj ((AList.lookup_insert _).symm.trans hsame)
          rfl
        · exact hown txn hfind cp' (hcps₃ hmem) htask

/-- What a commit that succeeds leaves in the storage. -/
def CommitSaved (flushed : List Checkpoint) (transactionId : String) (w v : World) : Prop :=
  ∃ txn ∈ w.transactions, txn.transactionId = transactionId ∧
    ∃ cp, v.storage.lookup txn.taskId = some cp ∧
      (MarkedCommitted transactionId cp ∧ cp.position = txn.position ∨ cp ∈ flushed)

theorem wp_commit (hi : Inv h w) (hflushed : Harmless flushed w.transactions)
    (transactionId : String) :
    wp World.handler.shared (Meanwhile flushed) (fun _ => True)
      (Call.commit transactionId).program
      (fun r v => Inv (h.after (.commit transactionId) r) v ∧
        ∀ answer, r = .ok answer → CommitSaved flushed transactionId w v) w := by
  refine wp_bind.mpr (wp_bind.mpr (wp_op fun c cps hcps => ?_))
  have hi₀ : Inv h (flush cps w) := hi.flush hflushed hcps
  simp only [World.exec]
  cases hfind : find w.transactions transactionId with
  | none =>
    refine ⟨trivial, hi₀, fun answer hr => ?_⟩
    cases hr
  | some txn =>
    obtain ⟨htxn, hid⟩ := TransactionalCheckpoint.find_some hfind
    have huncommitted : ¬ txn.committed = true := by simp [(hi.uncommitted txn htxn).1]
    by_cases hprepared : txn.prepared = true
    · simp only [hprepared, not_true_eq_false, if_false, huncommitted]
      refine wp_bind.mpr (wp_bind.mpr (wp_op fun c₁ cps₁ hcps₁ => ?_))
      have hi₁ : Inv h (flush cps₁ (flush cps w)) := hi₀.flush hflushed hcps₁
      simp only [World.exec]
      cases c₁.storage txn.taskId with
      | fails e applied =>
        refine ⟨trivial, hi₁, fun answer hr => ?_⟩
        cases hr
      | succeeds =>
        refine ⟨trivial, ?_⟩
        cases hloaded : (flush cps w).storage.lookup txn.taskId with
        | none =>
          refine ⟨trivial, hi₁, fun answer hr => ?_⟩
          cases hr
        | some cp =>
          -- what was loaded fits the prepared transactions, and so does what is saved
          have hfits := hi₀.records txn.taskId cp hloaded
          refine wp_bind.mpr (wp_op fun c₂ cps₂ hcps₂ => ?_)
          refine wp_bind.mpr (wp_bind.mpr (wp_op fun c₃ cps₃ hcps₃ => ?_))
          set cp' : Checkpoint := { cp with metadata := committedMetadata transactionId c₂.now }
          set w₂ := flush cps₂ (flush cps₁ (flush cps w))
          have hi₂ : Inv h w₂ := hi₁.flush hflushed hcps₂
          have hsaved : Inv h { w₂ with storage := w₂.storage.insert cp'.taskId cp' } := by
            refine hi₂.save (hfits.key ▸ hfits.relabel ?_)
            exact hid ▸ (hi.uncommitted txn htxn).2
          simp only [World.exec]
          cases c₃.storage cp.taskId with
          | fails e applied =>
            -- a save that is answered with an error may have taken effect
            cases applied with
            | true =>
              refine ⟨trivial, hsaved.flush hflushed hcps₃, fun answer hr => ?_⟩
              cases hr
            | false =>
              refine ⟨trivial, hi₂.flush hflushed hcps₃, fun answer hr => ?_⟩
              cases hr
          | succeeds =>
            refine ⟨trivial, wp_op fun c₄ cps₄ hcps₄ => ⟨trivial, ?_, fun answer _ => ?_⟩⟩
            · exact ((hsaved.flush hflushed hcps₃).committed hfind hprepared false).flush
                (hflushed.mono List.eraseP_subset) hcps₄
            · obtain ⟨cp₃, hcp₃, hsame₃⟩ :=
                exists_lookup_saveAll cps₃ (AList.lookup_insert (b := cp') w₂.storage)
              obtain ⟨cp₄, hcp₄, hsame₄⟩ := exists_lookup_saveAll cps₄ hcp₃
              refine ⟨txn, htxn, hid, cp₄, hfits.key ▸ hcp₄, ?_⟩
              -- the record is the one saved, or one that a flush has put in its place
              have hposition := hfits.prepared txn htxn hprepared rfl
              rcases hsame₄ with rfl | hmem
              · rcases hsame₃ with rfl | hmem
                · exact Or.inl ⟨⟨c₂.now, rfl⟩, hposition⟩
                · exact Or.inr (hcps₃ hmem)
              · exact Or.inr (hcps₄ hmem)
    · simp only [hprepared]
      refine ⟨trivial, hi₀, fun answer hr => ?_⟩
      cases hr

theorem wp_discardPrepared {txns : Txns} (hi : Inv h w) (htxns : w.transactions = txns)
    (hflushed : Harmless flushed txns) (txn : CheckpointTransaction) :
    wp World.handler.shared (Meanwhile flushed) (fun _ => True)
      (TransactionalCheckpoint.discardPrepared txn)
      (fun r v => r = .ok () ∧ Inv h v ∧ v.transactions = txns) w := by
  subst htxns
  unfold TransactionalCheckpoint.discardPrepared
  split
  · refine wp_bind.mpr (wp_op fun c cps hcps => ⟨trivial, rfl, ?_⟩)
    simp only [World.exec]
    cases c.storage txn.taskId with
    | succeeds => exact ⟨(hi.delete txn.taskId).flush hflushed hcps, rfl⟩
    | fails e applied =>
      cases applied with
      | true => exact ⟨(hi.delete txn.taskId).flush hflushed hcps, rfl⟩
      | false => exact ⟨hi.flush hflushed hcps, rfl⟩
  · exact ⟨trivial, rfl, hi, rfl⟩

theorem wp_rollback (hi : Inv h w) (hflushed : Harmless flushed w.transactions)
    (transactionId : String) :
    wp World.handler.shared (Meanwhile flushed) (fun _ => True)
      (Call.rollback transactionId).program
      (fun r v => Inv (h.after (.rollback transactionId) r) v) w := by
  refine wp_bind.mpr (wp_bind.mpr (wp_op fun c cps hcps => ?_))
  have hi₀ : Inv h (flush cps w) := hi.flush hflushed hcps
  simp only [World.exec]
  cases find w.transactions transactionId with
  | none => exact ⟨trivial, hi₀⟩
  | some txn =>
    refine wp.bind (wp_discardPrepared hi₀ rfl hflushed txn) ?_ ?_
    · intro _ v _ hv
      obtain ⟨-, hv, htxns⟩ := hv
      refine wp_op fun c₁ cps₁ hcps₁ => ⟨trivial, ?_⟩
      have hsub : (remove w.transactions transactionId).Sublist v.transactions :=
        htxns ▸ List.eraseP_sublist
      exact (hv.sublist hsub).flush (hflushed.mono List.eraseP_subset) hcps₁
    · intro err v _ hv
      cases hv.1

theorem wp_cleanupLoop (ids : List String) {txns : Txns} (hi : Inv h w)
    (htxns : w.transactions = txns) (hflushed : Harmless flushed txns) :
    wp World.handler.shared (Meanwhile flushed) (fun _ => True)
      (TransactionalCheckpoint.cleanupLoop ids txns)
      (fun r v => r = .ok () ∧ Inv h v) w := by
  induction ids generalizing w txns with
  | nil => exact ⟨trivial, rfl, hi⟩
  | cons id ids ih =>
    rw [TransactionalCheckpoint.cleanupLoop]
    cases find txns id with
    | none => exact ih hi htxns hflushed
    | some txn =>
      refine wp.bind (wp_discardPrepared hi htxns hflushed txn) ?_ ?_
      · intro _ v _ hv
        obtain ⟨-, hv, htxns'⟩ := hv
        have hsub : (remove txns id).Sublist v.transactions := htxns' ▸ List.eraseP_sublist
        have hrest : Harmless flushed (remove txns id) := hflushed.mono List.eraseP_subset
        exact wp_bind.mpr (wp_op fun c cps hcps =>
          ih ((hv.sublist hsub).flush hrest hcps) rfl hrest)
      · intro err v _ hv
        cases hv.1

theorem wp_cleanup (hi : Inv h w) (hflushed : Harmless flushed w.transactions)
    (timeoutSecs : Nat) :
    wp World.handler.shared (Meanwhile flushed) (fun _ => True)
      (Call.cleanup timeoutSecs).program
      (fun r v => Inv (h.after (.cleanup timeoutSecs) r) v) w := by
  refine wp_bind.mpr (wp_bind.mpr (wp_op fun c cps hcps =>
    wp_bind.mpr (wp_op fun c₁ cps₁ hcps₁ => ?_)))
  have hi₁ : Inv h (flush cps₁ (flush cps w)) :=
    (hi.flush hflushed hcps).flush hflushed hcps₁
  refine (wp_cleanupLoop _ hi₁ rfl hflushed).mono (fun _ hw => hw) fun r v _ hv => ?_
  obtain ⟨rfl, hv⟩ := hv
  exact ⟨trivial, hv⟩

theorem Agreeing.harmless {s : State} {l : Label} (hok : Agreeing s l)
    (hbuffered : ∀ cp ∈ l.flushed, Buffered cp) : Harmless l.flushed s.world.transactions :=
  fun cp hcp => ⟨hbuffered cp hcp, fun txn htxn hprepared htask =>
    hok.flushed txn htxn (Or.inl hprepared) cp hcp htask.symm⟩

theorem wp_call {s : State} {l : Label} {call : Call} (hl : l.Calls call)
    (hi : Inv s.history s.world) (hbuffered : ∀ cp ∈ l.flushed, Buffered cp)
    (hok : Agreeing s l) :
    wp World.handler.shared (Meanwhile l.flushed) (fun _ => True) call.program
      (fun r v => Inv (s.history.after call r) v) s.world := by
  have hflushed := hok.harmless hbuffered
  cases call with
  | begin transactionId taskId position => exact wp_begin hi hflushed transactionId taskId position
  | prepare transactionId =>
    refine wp_prepare hi hflushed transactionId (fun txn hfind => ?_) (hok.prepare transactionId hl)
    obtain ⟨htxn, rfl⟩ := TransactionalCheckpoint.find_some hfind
    exact hok.flushed txn htxn (Or.inr hl)
  | commit transactionId =>
    exact (wp_commit hi hflushed transactionId).mono (fun _ hw => hw) fun _ _ _ hv => hv.1
  | rollback transactionId => exact wp_rollback hi hflushed transactionId
  | cleanup timeoutSecs => exact wp_cleanup hi hflushed timeoutSecs

end

theorem Inv.init {s : State} (h : machine.init s) : Inv s.history s.world := by
  obtain ⟨htxns, hcommitted, hkeyed⟩ := h
  refine ⟨?_, ?_, ?_, fun taskId cp hcp => ⟨hkeyed taskId cp hcp, ?_, fun id _ _ hid => ?_⟩⟩
  · rw [htxns]
    exact List.nodup_nil
  · simp [htxns]
  · simp [htxns]
  · simp [htxns]
  · rw [hcommitted] at hid
    cases hid

theorem Inv.step {s s' : State} {l : Label} (hi : Inv s.history s.world)
    (hs : (machine.restrict Agreeing).step s l s') : Inv s'.history s'.world := by
  obtain ⟨hok, hbuffered, hstep⟩ := hs
  cases hl : l.action with
  | call call answer =>
    rw [hl] at hstep
    obtain ⟨hruns, hhistory⟩ := hstep
    rw [hhistory]
    exact (wp_iff.mp (wp_call ⟨answer, hl⟩ hi hbuffered hok)).2 answer s'.world hruns
  | flush =>
    rw [hl] at hstep
    obtain rfl := hstep
    exact hi.flush (hok.harmless hbuffered) (List.Subset.refl _)

theorem reachable_inv {s : State} (h : (machine.restrict Agreeing).Reachable s) :
    Inv s.history s.world :=
  Machine.Reachable.invariant (M := machine.restrict Agreeing) (fun _ hs => Inv.init hs)
    (fun _ _ _ hi hs => Inv.step hi hs) h

/-! ## The guarantee -/

/-- **In every run in which what is written over a prepared transaction agrees with it, a record
that is marked committed has the position of its own transaction**; and a commit that succeeds
marks such a record, unless a flush has replaced it by the time it returns. -/
theorem committed_carries_position {s : State} (h : (machine.restrict Agreeing).Reachable s) :
    CarriesPosition s ∧
    ∀ l s' transactionId answer, (machine.restrict Agreeing).step s l s' →
      l.action = .call (.commit transactionId) (.ok answer) →
      ∃ taskId position cp, s.history.begun transactionId = some (taskId, position) ∧
        s'.world.storage.lookup taskId = some cp ∧
        (MarkedCommitted transactionId cp ∧ cp.position = position ∨ cp ∈ l.flushed) := by
  have hi := reachable_inv h
  refine ⟨hi.carries, fun l s' transactionId answer hs hl => ?_⟩
  obtain ⟨hok, hbuffered, hstep⟩ := hs
  rw [hl] at hstep
  have hcommit := wp_commit hi (hok.harmless hbuffered) transactionId
  obtain ⟨txn, htxn, rfl, cp, hcp, hsaved⟩ :=
    ((wp_iff.mp hcommit).2 _ s'.world hstep.1).2 answer rfl
  exact ⟨txn.taskId, txn.position, cp, hi.begun txn htxn, hcp, hsaved⟩

/-! ### A flush between `prepare` and `commit` -/

/-- The state after a call during which nothing fails and nothing is flushed. -/
def State.after (s : State) (call : Call) : State :=
  let (r, w) := eval World.handler.shared (TransactionalCheckpoint.succeeding "7e1", flush [])
    call.program s.world
  ⟨w, s.history.after call r⟩

/-- The label of such a call. -/
def quietly (s : State) (call : Call) : Label :=
  ⟨.call call (eval World.handler.shared (TransactionalCheckpoint.succeeding "7e1", flush [])
    call.program s.world).1, []⟩

theorem machine_quietly (s : State) (call : Call) :
    machine.step s (quietly s call) (s.after call) := by
  refine ⟨fun cp hcp => ?_, ?_⟩
  · cases hcp
  · refine ⟨runs_eval ?_ _ _, rfl⟩
    exact ⟨[], List.Subset.refl _, rfl⟩

def empty : State :=
  ⟨⟨∅, [], .new 100, .new 30, true, ∅, ∅, []⟩, fun _ => none, fun _ => false⟩

theorem machine_empty : machine.init empty := by
  refine ⟨rfl, fun _ => rfl, fun taskId cp hcp => ?_⟩
  cases hcp

/-- A transaction of the task `books` -/
def begun : State := empty.after (.begin "t1" "books" (.postgreSQL "0/10"))

def prepared : State := begun.after (.prepare "t1")

/-- What the manager saves between `prepare` and `commit` -/
def bookSave (lsn : String) : Label :=
  ⟨.flush, [⟨"c4", "books", .postgreSQL lsn, 0, .null⟩]⟩

def flushed (lsn : String) : State :=
  { prepared with world := flush (bookSave lsn).flushed prepared.world }

def committed (lsn : String) : State := (flushed lsn).after (.commit "t1")

theorem machine_bookSave (lsn : String) :
    machine.step prepared (bookSave lsn) (flushed lsn) := by
  refine ⟨fun cp hcp => ?_, rfl⟩
  obtain rfl := List.mem_singleton.mp hcp
  exact ⟨⟨"c4", 0, fun _ => .succeeds, .succeeds, .succeeds, .succeeds⟩, "books",
    .postgreSQL lsn, rfl⟩

theorem agreeing_quietly {s : State} {call : Call}
    (hprepare : ∀ transactionId, call = .prepare transactionId →
      ∀ txn ∈ s.world.transactions, txn.prepared = false) : Agreeing s (quietly s call) := by
  refine ⟨fun txn _ _ cp hcp => ?_, fun transactionId hcall txn _ other hother hprepared => ?_⟩
  · cases hcp
  · obtain ⟨answer, hcall⟩ := hcall
    cases hcall
    rw [hprepare transactionId rfl other hother] at hprepared
    cases hprepared

theorem reachable_prepared : (machine.restrict Agreeing).Reachable prepared := by
  have hbegun : (machine.restrict Agreeing).Reachable begun := by
    refine .step (.init machine_empty) ⟨agreeing_quietly fun _ hcall => ?_, machine_quietly _ _⟩
    cases hcall
  refine hbegun.step ⟨agreeing_quietly fun _ _ txn htxn => ?_, machine_quietly _ _⟩
  obtain rfl := List.mem_singleton.mp htxn
  rfl

/-- The manager saves the transaction's own position, and the commit marks it. -/
theorem committed_carries_position_book :
    ∃ cp, (committed "0/10").world.storage.lookup "books" = some cp ∧
      MarkedCommitted "t1" cp ∧ cp.position = .postgreSQL "0/10" := by
  have hagreeing : Agreeing prepared (bookSave "0/10") := by
    refine ⟨fun txn htxn _ cp hcp _ => ?_, fun transactionId hcall => ?_⟩
    · obtain rfl := List.mem_singleton.mp htxn
      obtain rfl := List.mem_singleton.mp hcp
      rfl
    · obtain ⟨answer, hcall⟩ := hcall
      cases hcall
  have hflushed := reachable_prepared.step ⟨hagreeing, machine_bookSave "0/10"⟩
  have hquiet : Agreeing (flushed "0/10") (quietly (flushed "0/10") (.commit "t1")) := by
    refine agreeing_quietly fun _ hcall => ?_
    cases hcall
  obtain ⟨taskId, position, cp, hbegun, hcp, hmarked | hmem⟩ :=
    (committed_carries_position hflushed).2 _ (committed "0/10") "t1" false
      ⟨hquiet, machine_quietly _ _⟩ rfl
  · obtain ⟨rfl, rfl⟩ := Prod.mk.inj (Option.some.inj hbegun)
    exact ⟨cp, hcp, hmarked⟩
  · cases hmem

/-- The manager saves a newer position, and the commit marks that one. -/
theorem committed_position_lost : ¬ ∀ s, machine.Reachable s → CarriesPosition s := by
  intro h
  have hflushed := reachable_prepared.of_restrict.step (machine_bookSave "0/20")
  have hcommitted := hflushed.step (machine_quietly (flushed "0/20") (.commit "t1"))
  have hcarried := h _ hcommitted "t1" "books" (.postgreSQL "0/10") (by decide) (by decide)
    ⟨"c4", "books", .postgreSQL "0/20", 0, committedMetadata "t1" 0⟩ (by decide) ⟨0, rfl⟩
  exact absurd hcarried (by decide)

end CommittedPosition

end MeiliBridge
