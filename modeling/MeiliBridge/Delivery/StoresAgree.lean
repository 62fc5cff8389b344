import MeiliBridge.Lib.Trans
import MeiliBridge.Delivery.Manager
import MeiliBridge.Delivery.Rollback

/-!
# Whether the two transaction stores agree

The calls of `TransactionCoordinator` as steps of a machine. A call works on the checkpoint handler
first and on `TwoPhaseCommit` then; each store has its own lock, so anything can happen between the
two halves of a call, and each store expires its entries by its own clock. The handler's half is one
step: it holds the mutex of the handler's list, and what runs meanwhile works on the other store.

`commit` has nothing that undoes the first half. Its halves agree when the handler is set, no failed
save has taken effect, and the transaction is still prepared when the call gets to `TwoPhaseCommit`
(`stores_agree`); a transaction that has expired there is committed by the handler and lost to
`TwoPhaseCommit`, and the call answers with an error.
-/

set_option autoImplicit false

namespace MeiliBridge

open Interaction Trans

namespace TransactionCoordinator

/-- A call that has done its first half. -/
inductive Halfway where
  | prepare (transactionId : String) (position : Position)
  /-- with the world at its start -/
  | commit (transactionId : String) (before : World)
  | rollback (transactionId : String)

def Halfway.committing : Halfway → Option String
  | .commit transactionId _ => some transactionId
  | _ => none

/-- A call of `commit` that has returned, with the worlds at its start and at its end. -/
structure CommitReturn where
  transactionId : String
  result : Except Fault Unit
  before : World
  after : World

structure State where
  world : World
  halfway : List Halfway
  /-- the ids whose commit the checkpoint handler has answered with success -/
  handlerCommits : List String
  /-- the ids that have become `Committed` in `TwoPhaseCommit` -/
  twoPhaseCommits : List String
  returned : List CommitReturn

inductive Label where
  | setCheckpointHandler
  | begin (taskId : String)
  | prepare (transactionId : String) (position : Position)
  | prepareTwoPhase (transactionId : String) (position : Position)
  /-- with whether the storage may answer an error to a save that has taken effect -/
  | commit (transactionId : String) (lost : Bool)
  | commitTwoPhase (transactionId : String)
  | rollback (transactionId : String)
  | rollbackTwoPhase (transactionId : String)
  | cleanupTwoPhase (now : Nat)
  | cleanupCheckpoint
  /-- the delayed removal of a committed two-phase transaction -/
  | removal (transactionId : String)

/-- Nothing is known of what the environment chooses. -/
def anyChoice (_ : Choice) : Prop := True

/-- A save that is answered with an error has taken effect only if `lost` says so. -/
def savesLost (lost : Bool) (c : Choice) : Prop :=
  ∀ taskId e, c.storage taskId = .fails e true → lost = true

def State.setWorld (s : State) (w : World) : State := { s with world := w }

def State.setTwoPhase (s : State) (t : TwoPhaseCommit) : State :=
  { s with world := { s.world with twoPhaseCommit := t } }

/-- A call of `commit` returns. -/
def State.answer (s : State) (transactionId : String) (r : Except Fault Unit) (before : World) :
    State :=
  { s with returned := s.returned ++ [⟨transactionId, r, before, s.world⟩] }

/-- `TwoPhaseCommit` has answered a commit. -/
def State.countTwoPhase (s : State) (transactionId : String) : Result Unit → State
  | .ok () => { s with twoPhaseCommits := s.twoPhaseCommits ++ [transactionId] }
  | .error _ => s

/-- The checkpoint handler has answered a commit with success, if there is one. -/
def State.countHandler (s : State) (transactionId : String) : State :=
  if s.world.checkpointHandler then
    { s with handlerCommits := s.handlerCommits ++ [transactionId] }
  else s

inductive Step : State → Label → State → Prop
  | setCheckpointHandler {s : State} :
      Step s .setCheckpointHandler (s.setWorld { s.world with checkpointHandler := true })
  | begin {s : State} {taskId : String} {r : Except Fault String} {w : World}
      (h : Runs World.handler anyChoice (beginTransaction taskId) s.world r w) :
      Step s (.begin taskId) (s.setWorld w)
  | prepare {s : State} {transactionId : String} {position : Position} {w : World}
      (h : Runs World.handler anyChoice
        (prepareCheckpoint transactionId position s.world.checkpointHandler) s.world (.ok true) w) :
      Step s (.prepare transactionId position)
        { s.setWorld w with halfway := s.halfway ++ [.prepare transactionId position] }
  | prepareFails {s : State} {transactionId : String} {position : Position}
      {r : Except Fault Bool} {w : World} (hr : r ≠ .ok true)
      (h : Runs World.handler anyChoice
        (prepareCheckpoint transactionId position s.world.checkpointHandler) s.world r w) :
      Step s (.prepare transactionId position) (s.setWorld w)
  | prepareTwoPhase {s : State} {transactionId : String} {position : Position}
      {before after : List Halfway}
      (h : s.halfway = before ++ .prepare transactionId position :: after) :
      Step s (.prepareTwoPhase transactionId position)
        { s.setTwoPhase (s.world.twoPhaseCommit.prepare transactionId position).2 with
          halfway := before ++ after }
  | commit {s : State} {transactionId : String} {lost : Bool} {w : World}
      (h : Runs World.handler (savesLost lost)
        (commitCheckpoint transactionId s.world.checkpointHandler) s.world (.ok ()) w) :
      Step s (.commit transactionId lost)
        { (s.countHandler transactionId).setWorld w with
          halfway := s.halfway ++ [.commit transactionId s.world] }
  | commitFails {s : State} {transactionId : String} {lost : Bool} {e : Fault} {w : World}
      (h : Runs World.handler (savesLost lost)
        (commitCheckpoint transactionId s.world.checkpointHandler) s.world (.error e) w) :
      Step s (.commit transactionId lost)
        ((s.setWorld w).answer transactionId (.error e) s.world)
  | commitTwoPhase {s : State} {transactionId : String} {start : World}
      {before after : List Halfway} {r : Result Unit} {t : TwoPhaseCommit}
      (h : s.halfway = before ++ .commit transactionId start :: after)
      (hr : s.world.twoPhaseCommit.commit transactionId = (r, t)) :
      Step s (.commitTwoPhase transactionId)
        { ((s.setTwoPhase t).countTwoPhase transactionId r).answer transactionId
          r.toFault start with
          halfway := before ++ after }
  | rollback {s : State} {transactionId : String} {w : World}
      (h : Runs World.handler anyChoice
        (rollbackCheckpoint transactionId s.world.checkpointHandler) s.world (.ok ()) w) :
      Step s (.rollback transactionId)
        { s.setWorld w with halfway := s.halfway ++ [.rollback transactionId] }
  | rollbackTwoPhase {s : State} {transactionId : String} {before after : List Halfway}
      (h : s.halfway = before ++ .rollback transactionId :: after) :
      Step s (.rollbackTwoPhase transactionId)
        { s.setTwoPhase (s.world.twoPhaseCommit.abort transactionId) with
          halfway := before ++ after }
  | cleanupTwoPhase {s : State} {now : Nat} :
      Step s (.cleanupTwoPhase now)
        (s.setTwoPhase (s.world.twoPhaseCommit.cleanupStaleTransactions now))
  | cleanupCheckpoint {s : State} {r : Except Fault Unit} {w : World}
      (h : Runs World.handler anyChoice (TransactionalCheckpoint.cleanupStaleTransactions
        s.world.twoPhaseCommit.timeoutSecs) s.world r w) :
      Step s .cleanupCheckpoint (s.setWorld w)
  | removal {s : State} {transactionId : String}
      (h : transactionId ∈ s.world.twoPhaseCommit.removals) :
      Step s (.removal transactionId)
        (s.setTwoPhase (s.world.twoPhaseCommit.runRemoval transactionId))

/-- Any storage and no transaction yet. -/
def Starts (s : State) : Prop :=
  s.world.transactions = [] ∧ s.world.twoPhaseCommit.transactions = ∅ ∧
    s.world.twoPhaseCommit.removals = [] ∧ s.halfway = [] ∧ s.handlerCommits = [] ∧
    s.twoPhaseCommits = [] ∧ s.returned = []

def machine : Machine State Label := ⟨Starts, Step⟩

/-- The record is marked as committed by this transaction. -/
def CommittedBy (transactionId : String) (cp : Checkpoint) : Prop :=
  cp.committed = some true ∧ cp.metadata.get "transaction_id" = some (.string transactionId)

/-- A call that answers an error has left the transaction with the handler, and has not committed
the record of its task. -/
def CommitReturn.LeavesOpen (c : CommitReturn) : Prop :=
  ∀ e, c.result = .error e →
    ∀ txn, TransactionalCheckpoint.find c.before.transactions c.transactionId = some txn →
      TransactionalCheckpoint.find c.after.transactions c.transactionId = some txn ∧
      ∀ cp, c.after.storage.lookup txn.taskId = some cp → CommittedBy c.transactionId cp →
        c.before.storage.lookup txn.taskId = some cp

/-- The ids whose commit has done its first half. -/
def State.committing (s : State) : List String := s.halfway.filterMap Halfway.committing

/-- What the two stores agree on. -/
structure State.Agree (s : State) : Prop where
  leavesOpen : ∀ c ∈ s.returned, c.LeavesOpen
  /-- where no commit is halfway, the handler has committed exactly what `TwoPhaseCommit` has -/
  commits : ∀ transactionId ∉ s.committing,
    s.handlerCommits.count transactionId = s.twoPhaseCommits.count transactionId

/-- A commit starts with the handler set and a storage that fails without effect, and it finds the
transaction prepared when it gets to `TwoPhaseCommit`. -/
def CommitsTogether (s : State) : Label → Prop
  | .commit _ lost => s.world.checkpointHandler = true ∧ lost = false
  | .commitTwoPhase transactionId =>
    ∃ txn, s.world.twoPhaseCommit.transactions.lookup transactionId = some txn ∧
      txn.state = .prepared
  | _ => True

/-! ## The halves of a commit -/

section

variable {P : Choice → Prop} {w : World}

open TransactionalCheckpoint in
/-- Where a failed save has no effect, a commit that fails has none. -/
theorem wp_commit_error (hP : ∀ c, P c → ∀ taskId e, c.storage taskId ≠ .fails e true)
    (transactionId : String) :
    wp World.handler P (fun _ => True) (TransactionalCheckpoint.commit transactionId)
      (fun r v => ∀ e, r = .error e → v = w) w := by
  refine (wp_commit transactionId).mono (fun _ h => h) ?_
  rintro r v - houtcome e rfl
  cases houtcome with
  | nothing => rfl
  | failed txn cp metadata c e' fault hfind hprepared hcp hc hreply =>
    exact absurd hreply (hP c hc _ _)

/-- The handler's half of a commit that fails changes nothing. -/
theorem commitCheckpoint_error {transactionId : String} {handler : Bool} {e : Fault} {v : World}
    (h : Runs World.handler (savesLost false) (commitCheckpoint transactionId handler) w
      (.error e) v) :
    v = w := by
  cases handler with
  | false => exact nomatch h.1
  | true =>
    have hP : ∀ c, savesLost false c → ∀ taskId e, c.storage taskId ≠ .fails e true :=
      fun c hc taskId e hfails => nomatch hc taskId e hfails
    exact (wp_iff.mp (wp_commit_error hP transactionId)).2 _ _ h e rfl

end

/-! ## The invariant -/

/-- What holds at every point of a run whose commits meet the condition: the handler is ahead of
`TwoPhaseCommit` by the commits that are halfway. -/
structure Inv (s : State) : Prop where
  leavesOpen : ∀ c ∈ s.returned, c.LeavesOpen
  commits : ∀ transactionId, s.handlerCommits.count transactionId =
    s.twoPhaseCommits.count transactionId + s.committing.count transactionId

variable {s s' : State} {l : Label}

theorem Inv.agree (h : Inv s) : s.Agree where
  leavesOpen := h.leavesOpen
  commits id hid := by rw [h.commits id, List.count_eq_zero_of_not_mem hid, Nat.add_zero]

/-- A step that returns from no commit, and begins or ends none. -/
theorem Inv.same (h : Inv s) (hhandler : s'.handlerCommits = s.handlerCommits)
    (htwo : s'.twoPhaseCommits = s.twoPhaseCommits) (hreturned : s'.returned = s.returned)
    (hcommitting : s'.committing = s.committing) : Inv s' where
  leavesOpen c hc := h.leavesOpen c (hreturned ▸ hc)
  commits id := by rw [hhandler, htwo, hcommitting, h.commits id]

theorem committing_cons (x : Halfway) (xs : List Halfway) :
    (x :: xs).filterMap Halfway.committing =
      x.committing.toList ++ xs.filterMap Halfway.committing := by
  cases h : x.committing with
  | none => rw [List.filterMap_cons_none h]; rfl
  | some id => rw [List.filterMap_cons_some h]; rfl

theorem Inv.step (h : Inv s) (hok : CommitsTogether s l) (hs : Step s l s') : Inv s' := by
  cases hs with
  | setCheckpointHandler | begin | prepareFails | cleanupTwoPhase | cleanupCheckpoint | removal =>
    exact h.same rfl rfl rfl rfl
  | prepare | rollback =>
    exact h.same rfl rfl rfl (by simp [State.committing, Halfway.committing])
  | prepareTwoPhase hhalf | rollbackTwoPhase hhalf =>
    exact h.same rfl rfl rfl
      (by simp [State.committing, hhalf, committing_cons, Halfway.committing])
  | @commit transactionId lost w hr =>
    obtain ⟨hhandler, -⟩ := hok
    rw [State.countHandler, if_pos hhandler]
    refine ⟨h.leavesOpen, fun id => ?_⟩
    have hcommits := h.commits id
    simp only [State.committing, State.setWorld, List.filterMap_append, committing_cons,
      Halfway.committing, List.count_append] at hcommits ⊢
    simp only [Option.toList, List.filterMap_nil, List.count_nil]
    omega
  | @commitFails transactionId lost e w hr =>
    obtain ⟨-, rfl⟩ := hok
    obtain rfl := commitCheckpoint_error hr
    refine ⟨fun c hc => ?_, h.commits⟩
    rcases List.mem_append.mp hc with hc | hc
    · exact h.leavesOpen c hc
    · -- the call has changed nothing
      obtain rfl := List.mem_singleton.mp hc
      exact fun _ _ txn hfind => ⟨hfind, fun cp hcp _ => hcp⟩
  | @commitTwoPhase transactionId start before after r t hhalf hr =>
    -- the transaction is prepared, so its commit succeeds
    have hsucceeds : r = .ok () := by
      have := (TwoPhaseCommit.commit_ok s.world.twoPhaseCommit transactionId).mpr hok
      rwa [hr] at this
    subst hsucceeds
    refine ⟨fun c hc => ?_, fun id => ?_⟩
    · rcases List.mem_append.mp hc with hc | hc
      · exact h.leavesOpen c hc
      · obtain rfl := List.mem_singleton.mp hc
        exact fun e he => nomatch he
    · have hcommits := h.commits id
      simp only [State.committing, hhalf, State.answer, State.countTwoPhase, State.setTwoPhase,
        List.filterMap_append, committing_cons, Halfway.committing, List.count_append,
        Option.toList] at hcommits ⊢
      omega

theorem Inv.init (h : Starts s) : Inv s := by
  obtain ⟨-, -, -, hhalfway, hhandler, htwo, hreturned⟩ := h
  exact ⟨by simp [hreturned], by simp [State.committing, hhalfway, hhandler, htwo]⟩

theorem reachable_inv {s : State} (h : (machine.restrict CommitsTogether).Reachable s) : Inv s := by
  refine h.invariant (I := Inv) (fun _ hs => Inv.init hs) ?_
  rintro _ _ _ hinv ⟨hok, hs⟩
  exact hinv.step hok hs

/-- **The two stores agree on commits** in every state of a run each of whose commits starts with
the handler set, is not answered with an error for a save that has taken effect, and finds the
transaction prepared when it gets to `TwoPhaseCommit`. -/
theorem stores_agree (s : State) (h : (machine.restrict CommitsTogether).Reachable s) : s.Agree :=
  (reachable_inv h).agree

/-! ### A transaction that expires before its commit -/

/-- Nothing is stored, and the handler is set. -/
def start : State := ⟨(TransactionalCheckpoint.stored ∅).world, [], [], [], []⟩

/-- Every call succeeds at the time `0`, and the identifier is this one. -/
def choice : Choice := TransactionalCheckpoint.succeeding "7e1"

/-- The world after a program whose calls all succeed. -/
def World.after {α : Type} (w : World) (p : TaskProg α) : World :=
  (eval World.handler choice p w).2

theorem savesLost_choice (lost : Bool) : savesLost lost choice := fun _ _ h => nomatch h

/-- A transaction of the task `books`, begun and prepared in both stores. -/
def bookPrepared : State :=
  let w := World.after start.world (beginTransaction "books")
  let w := World.after w (prepareCheckpoint "books-7e1" (.postgreSQL "0/10") true)
  start.setWorld { w with
    twoPhaseCommit := (w.twoPhaseCommit.prepare "books-7e1" (.postgreSQL "0/10")).2 }

theorem reachable_bookPrepared : (machine.restrict CommitsTogether).Reachable bookPrepared := by
  have h₀ : (machine.restrict CommitsTogether).Reachable start :=
    .init ⟨rfl, rfl, rfl, rfl, rfl, rfl, rfl⟩
  have h₁ := h₀.step (l := Label.begin "books")
    ⟨trivial, .begin (runs_of_eval (c := choice) trivial rfl)⟩
  have h₂ := h₁.step (l := Label.prepare "books-7e1" (.postgreSQL "0/10"))
    ⟨trivial, .prepare (runs_of_eval (c := choice) trivial rfl)⟩
  exact h₂.step (l := Label.prepareTwoPhase "books-7e1" (.postgreSQL "0/10"))
    ⟨trivial, @Step.prepareTwoPhase _ _ _ [] _ rfl⟩

/-- The two-phase transaction expires first: the handler commits, and the call answers an error. -/
theorem bookExpired :
    ∃ s : State, machine.Reachable s ∧ (∃ c ∈ s.returned, ¬ c.LeavesOpen) ∧ s.committing = [] ∧
      s.handlerCommits = ["books-7e1"] ∧ s.twoPhaseCommits = [] := by
  have h₁ := reachable_bookPrepared.of_restrict.step (l := Label.cleanupTwoPhase 30001)
    .cleanupTwoPhase
  have h₂ := h₁.step (l := Label.commit "books-7e1" false)
    (.commit (runs_of_eval (savesLost_choice _) rfl))
  have h₃ := h₂.step (l := Label.commitTwoPhase "books-7e1")
    (@Step.commitTwoPhase _ _ _ [] _ _ _ rfl rfl)
  refine ⟨_, h₃, ⟨_, List.mem_singleton_self _, fun hopen => ?_⟩, rfl, rfl, rfl⟩
  have hpresent := (hopen _ rfl _ rfl).1
  exact absurd hpresent (by decide)

/-- A commit can fail after the handler has committed, and then the stores disagree. -/
theorem stores_not_always_agree :
    (¬ ∀ s, machine.Reachable s → ∀ c ∈ s.returned, c.LeavesOpen) ∧
    ¬ ∀ s, machine.Reachable s → ∀ transactionId ∉ s.committing,
      s.handlerCommits.count transactionId = s.twoPhaseCommits.count transactionId := by
  obtain ⟨s, hr, ⟨c, hc, hopen⟩, hcommitting, hhandler, htwo⟩ := bookExpired
  refine ⟨fun h => hopen (h s hr c hc), fun h => ?_⟩
  have hcount := h s hr "books-7e1" (by simp [hcommitting])
  simp [hhandler, htwo] at hcount

/-- A transaction that is committed in both stores. -/
theorem stores_agree_book :
    ∃ s : State, s.handlerCommits = ["books-7e1"] ∧ s.twoPhaseCommits = ["books-7e1"] ∧
      s.Agree := by
  have h₁ := reachable_bookPrepared.step (l := Label.commit "books-7e1" false)
    ⟨⟨rfl, rfl⟩, .commit (runs_of_eval (savesLost_choice _) rfl)⟩
  have h₂ := h₁.step (l := Label.commitTwoPhase "books-7e1")
    ⟨⟨_, rfl, rfl⟩, @Step.commitTwoPhase _ _ _ [] _ _ _ rfl rfl⟩
  exact ⟨_, rfl, rfl, stores_agree _ h₂⟩

end TransactionCoordinator

end MeiliBridge
