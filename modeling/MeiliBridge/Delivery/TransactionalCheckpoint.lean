import MeiliBridge.Delivery.World

/-!
# Transactional checkpoints

The methods of `TransactionalCheckpoint`. Each holds the mutex of the transaction list from its
first operation to its last, so no other method runs in between; the checkpoint storage, which
`prepare`, `commit` and `rollback` write while they hold it, has no such lock.
-/

set_option autoImplicit false

namespace MeiliBridge

open Interaction

namespace TransactionalCheckpoint

abbrev Txns := List CheckpointTransaction

def find (txns : Txns) (transactionId : String) : Option CheckpointTransaction :=
  txns.find? (·.transactionId = transactionId)

/-- The transactions without the first one of this id. -/
def remove (txns : Txns) (transactionId : String) : Txns :=
  txns.eraseP (·.transactionId = transactionId)

/-- Mark the first transaction of this id as prepared. -/
def markPrepared (transactionId : String) : Txns → Txns
  | [] => []
  | t :: ts =>
    if t.transactionId = transactionId then { t with prepared := true } :: ts
    else t :: markPrepared transactionId ts

/-- The transactions of this id. -/
def ofId (txns : Txns) (transactionId : String) : Txns :=
  txns.filter (·.transactionId = transactionId)

theorem find_eq (txns : Txns) (transactionId : String) :
    find txns transactionId = (ofId txns transactionId).head? := by
  rw [ofId, List.head?_filter]
  rfl

theorem any_eq_false {txns : Txns} {transactionId : String} :
    txns.any (·.transactionId = transactionId) = false ↔ ofId txns transactionId = [] := by
  simp [ofId, List.filter_eq_nil_iff]

theorem ofId_append_self (txns : Txns) (txn : CheckpointTransaction) :
    ofId (txns ++ [txn]) txn.transactionId = ofId txns txn.transactionId ++ [txn] := by
  simp [ofId]

theorem ofId_remove (txns : Txns) (transactionId : String) :
    ofId (remove txns transactionId) transactionId = (ofId txns transactionId).tail := by
  induction txns with
  | nil => rfl
  | cons t ts ih =>
    by_cases h : t.transactionId = transactionId
    · simp [ofId, remove, h]
    · simpa [ofId, remove, h] using ih

theorem ofId_markPrepared (txns : Txns) (transactionId : String) :
    ofId (markPrepared transactionId txns) transactionId =
      (ofId txns transactionId).modifyHead fun t => { t with prepared := true } := by
  induction txns with
  | nil => rfl
  | cons t ts ih =>
    by_cases h : t.transactionId = transactionId
    · simp [ofId, markPrepared, h]
    · simpa [ofId, markPrepared, h] using ih

def preparedMetadata (transactionId : String) : Value :=
  .object [("committed", .bool false), ("prepared", .bool true),
    ("transaction_id", .string transactionId)]

def committedMetadata (transactionId : String) (now : Nat) : Value :=
  .object [("committed", .bool true), ("committed_at", .string (toString now)),
    ("prepared", .bool true), ("transaction_id", .string transactionId)]

/-- The record a transaction saves when it is prepared. -/
def preparedCheckpoint (txn : CheckpointTransaction) (transactionId id : String) (now : Nat) :
    Checkpoint :=
  ⟨id, txn.taskId, txn.position, now, preparedMetadata transactionId⟩

/-- `begin_transaction` -/
def beginTransaction (transactionId taskId : String) (position : Position) : TaskProg Unit := do
  let txns ← Env.lockTransactions
  if txns.any (·.transactionId = transactionId) then
    throwPipeline s!"Transaction {transactionId} already exists"
  else do
    let now ← Env.clock
    Env.setTransactions (txns ++ [⟨transactionId, taskId, position, false, false, now⟩])

/-- `prepare`. A failed save is logged and answered with `false`. -/
def prepare (transactionId : String) : TaskProg Bool := do
  let txns ← Env.lockTransactions
  match find txns transactionId with
  | none => throwPipeline s!"Transaction {transactionId} not found"
  | some txn =>
    if txn.prepared then pure true
    else do
      let id ← Env.newUuid
      let now ← Env.clock
      let saved ← Env.saveCheckpoint (preparedCheckpoint txn transactionId id now)
      match saved with
      | .ok () => do
        Env.setTransactions (markPrepared transactionId txns)
        pure true
      | .error _ => pure false

/-- `commit` -/
def commit (transactionId : String) : TaskProg Unit := do
  let txns ← Env.lockTransactions
  match find txns transactionId with
  | none => throwPipeline s!"Transaction {transactionId} not found"
  | some txn =>
    if ¬ txn.prepared then throwPipeline s!"Transaction {transactionId} not prepared"
    else if txn.committed then pure ()
    else do
      let loaded ← orThrow (Env.loadCheckpoint txn.taskId)
      match loaded with
      | none => throwPipeline s!"Checkpoint not found for task {txn.taskId}"
      | some checkpoint => do
        let now ← Env.clock
        orThrow (Env.saveCheckpoint
          { checkpoint with metadata := committedMetadata transactionId now })
        Env.setTransactions (remove txns transactionId)

/-- Delete the checkpoint of a prepared transaction; an error is only logged. -/
def discardPrepared (txn : CheckpointTransaction) : TaskProg Unit :=
  if txn.prepared ∧ ¬ txn.committed then do
    let _ ← Env.deleteCheckpoint txn.taskId
    pure ()
  else pure ()

/-- `rollback` -/
def rollback (transactionId : String) : TaskProg Unit := do
  let txns ← Env.lockTransactions
  match find txns transactionId with
  | none => throwPipeline s!"Transaction {transactionId} not found"
  | some txn => do
    discardPrepared txn
    Env.setTransactions (remove txns transactionId)

/-- Older than `timeoutSecs` at the time `now` -/
def isStale (timeoutSecs now : Nat) (txn : CheckpointTransaction) : Bool :=
  decide (txn.createdAt + timeoutSecs * 1000 < now)

/-- The loop of `cleanup_stale_transactions` over the stale ids. -/
def cleanupLoop : List String → Txns → TaskProg Unit
  | [], _ => pure ()
  | id :: ids, txns =>
    match find txns id with
    | none => cleanupLoop ids txns
    | some txn => do
      discardPrepared txn
      Env.setTransactions (remove txns id)
      cleanupLoop ids (remove txns id)

/-- `cleanup_stale_transactions` -/
def cleanupStaleTransactions (timeoutSecs : Nat) : TaskProg Unit := do
  let txns ← Env.lockTransactions
  let now ← Env.clock
  cleanupLoop ((txns.filter (isStale timeoutSecs now)).map (·.transactionId)) txns

end TransactionalCheckpoint

end MeiliBridge
