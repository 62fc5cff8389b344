import MeiliBridge.Config
import MeiliBridge.Models.Event

/-!
# Two-phase commit

The table of `TwoPhaseCommit` and its methods, each of which holds the table's lock from beginning
to end. A committed transaction leaves the table by a removal that the commit schedules.
-/

set_option autoImplicit false

namespace MeiliBridge

inductive TransactionState where
  | started
  | prepared
  | committed
  | aborted
  deriving DecidableEq

/-- `{:?}` of a state -/
def TransactionState.debug : TransactionState → String
  | .started => "Started"
  | .prepared => "Prepared"
  | .committed => "Committed"
  | .aborted => "Aborted"

structure TwoPhaseTransaction where
  id : String
  taskId : String
  state : TransactionState
  position : Option Position
  createdAt : Nat
  deriving DecidableEq

structure TwoPhaseCommit where
  timeoutSecs : Nat
  transactions : Dict TwoPhaseTransaction
  /-- the ids whose removal is scheduled -/
  removals : List String

namespace TwoPhaseCommit

def new (timeoutSecs : Nat) : TwoPhaseCommit := ⟨timeoutSecs, ∅, []⟩

def pipelineError {α : Type} (msg : String) : Result α := .error (.pipeline msg)

/-- `begin` at the time `now` -/
def beginTransaction (t : TwoPhaseCommit) (now : Nat) (transactionId taskId : String) :
    Result Unit × TwoPhaseCommit :=
  if transactionId ∈ t.transactions then
    (pipelineError s!"Transaction {transactionId} already exists", t)
  else
    (.ok (), {
      t with
      transactions := t.transactions.insert transactionId
        ⟨transactionId, taskId, .started, none, now⟩ })

/-- `prepare` -/
def prepare (t : TwoPhaseCommit) (transactionId : String) (position : Position) :
    Result Bool × TwoPhaseCommit :=
  match t.transactions.lookup transactionId with
  | none => (pipelineError s!"Transaction {transactionId} not found", t)
  | some txn =>
    if txn.state ≠ .started then
      (pipelineError s!"Transaction {transactionId} in invalid state: {txn.state.debug}", t)
    else
      (.ok true, {
        t with
        transactions := t.transactions.insert transactionId
          { txn with position := some position, state := .prepared } })

/-- `commit` -/
def commit (t : TwoPhaseCommit) (transactionId : String) : Result Unit × TwoPhaseCommit :=
  match t.transactions.lookup transactionId with
  | none => (pipelineError s!"Transaction {transactionId} not found", t)
  | some txn =>
    if txn.state ≠ .prepared then
      (pipelineError s!"Transaction {transactionId} not prepared: {txn.state.debug}", t)
    else
      (.ok (), {
        t with
        transactions := t.transactions.insert transactionId { txn with state := .committed }
        removals := t.removals ++ [transactionId] })

/-- `abort` -/
def abort (t : TwoPhaseCommit) (transactionId : String) : TwoPhaseCommit :=
  { t with transactions := t.transactions.erase transactionId }

/-- Older than the timeout at the time `now`, and not committed -/
def isStale (t : TwoPhaseCommit) (now : Nat) (txn : TwoPhaseTransaction) : Bool :=
  decide (txn.createdAt + t.timeoutSecs * 1000 < now) && decide (txn.state ≠ .committed)

/-- The ids of the stale transactions. -/
def staleIds (t : TwoPhaseCommit) (now : Nat) : List String :=
  t.transactions.keys.filter fun id => (t.transactions.lookup id).any (t.isStale now)

/-- `cleanup_stale_transactions` at the time `now` -/
def cleanupStaleTransactions (t : TwoPhaseCommit) (now : Nat) : TwoPhaseCommit :=
  { t with
    transactions := (t.staleIds now).foldl (fun txns id => txns.erase id) t.transactions }

/-- What a commit schedules: the removal of its id, five seconds later. -/
def runRemoval (t : TwoPhaseCommit) (transactionId : String) : TwoPhaseCommit :=
  { t with
    transactions := t.transactions.erase transactionId
    removals := t.removals.erase transactionId }

/-! ## What the methods do to one transaction -/

section Lookup

variable (t : TwoPhaseCommit)

theorem lookup_foldl_erase (ids : List String) (txns : Dict TwoPhaseTransaction) (id : String) :
    (ids.foldl (fun txns id => txns.erase id) txns).lookup id =
      if id ∈ ids then none else txns.lookup id := by
  induction ids generalizing txns with
  | nil => simp
  | cons x ids ih =>
    rw [List.foldl_cons, ih]
    by_cases hx : id = x
    · subst hx
      simp [AList.lookup_erase]
    · simp [hx, AList.lookup_erase_ne hx]

/-- The cleanup removes what is stale, and nothing else. -/
theorem lookup_cleanupStaleTransactions (now : Nat) (id : String) :
    (t.cleanupStaleTransactions now).transactions.lookup id =
      (t.transactions.lookup id).filter fun txn => !t.isStale now txn := by
  rw [cleanupStaleTransactions, lookup_foldl_erase]
  cases hlookup : t.transactions.lookup id with
  | none => simp
  | some txn =>
    have hmem : id ∈ t.transactions.keys :=
      AList.mem_keys.mp (AList.lookup_isSome.mp (by simp [hlookup]))
    by_cases hstale : t.isStale now txn = true
    · have : id ∈ t.staleIds now := List.mem_filter.mpr ⟨hmem, by simp [hlookup, hstale]⟩
      simp [this, hstale, Option.filter]
    · have : id ∉ t.staleIds now := fun h => by
        have := (List.mem_filter.mp h).2
        simp [hlookup, hstale] at this
      simp [this, hstale, Option.filter]

theorem lookup_beginTransaction (now : Nat) (transactionId taskId id : String) :
    (t.beginTransaction now transactionId taskId).2.transactions.lookup id =
      if id = transactionId ∧ t.transactions.lookup id = none then
        some ⟨transactionId, taskId, .started, none, now⟩
      else t.transactions.lookup id := by
  unfold beginTransaction
  by_cases hmem : transactionId ∈ t.transactions
  · have hsome := AList.lookup_isSome.mpr hmem
    rw [if_pos hmem, if_neg]
    rintro ⟨rfl, hnone⟩
    simp [hnone] at hsome
  · rw [if_neg hmem]
    by_cases hid : id = transactionId
    · subst hid
      simp [AList.lookup_eq_none.mpr hmem]
    · simp [hid]

/-- `begin` succeeds for an id that is not in the table. -/
theorem beginTransaction_ok (now : Nat) (transactionId taskId : String) :
    (t.beginTransaction now transactionId taskId).1 = .ok () ↔
      t.transactions.lookup transactionId = none := by
  rw [AList.lookup_eq_none, beginTransaction]
  split <;> simp_all [pipelineError]

theorem lookup_prepare (transactionId id : String) (position : Position) :
    (t.prepare transactionId position).2.transactions.lookup id =
      if id = transactionId then
        (t.transactions.lookup id).map fun txn =>
          if txn.state = .started then { txn with position := some position, state := .prepared }
          else txn
      else t.transactions.lookup id := by
  unfold prepare
  by_cases hid : id = transactionId
  · subst hid
    cases hlookup : t.transactions.lookup id with
    | none => simp [hlookup]
    | some txn => by_cases hstate : txn.state = .started <;> simp [hlookup, hstate]
  · split
    · simp [hid]
    · split <;> simp [hid]

theorem lookup_commit (transactionId id : String) :
    (t.commit transactionId).2.transactions.lookup id =
      if id = transactionId then
        (t.transactions.lookup id).map fun txn =>
          if txn.state = .prepared then { txn with state := .committed } else txn
      else t.transactions.lookup id := by
  unfold commit
  by_cases hid : id = transactionId
  · subst hid
    cases hlookup : t.transactions.lookup id with
    | none => simp [hlookup]
    | some txn => by_cases hstate : txn.state = .prepared <;> simp [hlookup, hstate]
  · split
    · simp [hid]
    · split <;> simp [hid]

/-- `commit` succeeds for a prepared transaction. -/
theorem commit_ok (transactionId : String) :
    (t.commit transactionId).1 = .ok () ↔
      ∃ txn, t.transactions.lookup transactionId = some txn ∧ txn.state = .prepared := by
  unfold commit
  cases hlookup : t.transactions.lookup transactionId with
  | none => simp [pipelineError]
  | some txn => by_cases hstate : txn.state = .prepared <;> simp [hstate, pipelineError]

theorem lookup_abort (transactionId id : String) :
    (t.abort transactionId).transactions.lookup id =
      if id = transactionId then none else t.transactions.lookup id := by
  by_cases hid : id = transactionId
  · subst hid
    simp [abort, AList.lookup_erase]
  · simp [abort, hid, AList.lookup_erase_ne hid]

theorem lookup_runRemoval (transactionId id : String) :
    (t.runRemoval transactionId).transactions.lookup id =
      if id = transactionId then none else t.transactions.lookup id :=
  t.lookup_abort transactionId id

end Lookup

end TwoPhaseCommit

end MeiliBridge
