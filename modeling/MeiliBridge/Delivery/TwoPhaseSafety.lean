import MeiliBridge.Lib.Trans
import MeiliBridge.Delivery.TwoPhaseCommit

/-!
# What the table of two-phase transactions guarantees

`StoreHistory` is the table of `TwoPhaseCommit` together with what its entries are about: an id can
be begun again once its transaction has left the table, so the transactions of one id are numbered,
and a scheduled removal remembers the number of the transaction whose commit scheduled it.

`prepare` and `commit` check the state they start from, and `cleanup_stale_transactions` passes
over committed transactions; `abort` removes whatever it finds. A step is therefore safe exactly
when it does not abort a committed transaction (`store_step_safe_iff`), and then a removal never
finds another transaction under its id than the one it is for.
-/

set_option autoImplicit false

namespace MeiliBridge

open Trans

namespace TwoPhaseCommit

inductive StoreLabel where
  | beginTransaction (now : Nat) (transactionId taskId : String)
  | prepare (transactionId : String) (position : Position)
  | commit (transactionId : String)
  | abort (transactionId : String)
  | cleanup (now : Nat)
  /-- the removal that the `n`-th transaction of the id scheduled when it was committed -/
  | removal (transactionId : String) (n : Nat)

structure StoreHistory where
  store : TwoPhaseCommit
  /-- the number of the last transaction of an id -/
  begun : String → Nat
  /-- the removals to come, by id and number -/
  scheduled : List (String × Nat)

namespace StoreHistory

/-- The empty store. -/
def new (timeoutSecs : Nat) : StoreHistory := ⟨.new timeoutSecs, fun _ => 0, []⟩

/-- The number of the last transaction of each id, after a call of `begin` has answered. -/
def countBegun (s : StoreHistory) (transactionId : String) : Result Unit → String → Nat
  | .ok () => Function.update s.begun transactionId (s.begun transactionId + 1)
  | .error _ => s.begun

/-- The removals to come, after a call of `commit` has answered. -/
def scheduleRemoval (s : StoreHistory) (transactionId : String) :
    Result Unit → List (String × Nat)
  | .ok () => s.scheduled ++ [(transactionId, s.begun transactionId)]
  | .error _ => s.scheduled

def step (s : StoreHistory) : StoreLabel → Option StoreHistory
  | .beginTransaction now transactionId taskId =>
    let (r, store) := s.store.beginTransaction now transactionId taskId
    some { s with store, begun := s.countBegun transactionId r }
  | .prepare transactionId position =>
    some { s with store := (s.store.prepare transactionId position).2 }
  | .commit transactionId =>
    let (r, store) := s.store.commit transactionId
    some { s with store, scheduled := s.scheduleRemoval transactionId r }
  | .abort transactionId => some { s with store := s.store.abort transactionId }
  | .cleanup now => some { s with store := s.store.cleanupStaleTransactions now }
  | .removal transactionId n =>
    if (transactionId, n) ∈ s.scheduled then
      some {
        s with
        store := s.store.runRemoval transactionId
        scheduled := s.scheduled.erase (transactionId, n) }
    else none

def machine (timeoutSecs : Nat) : Machine StoreHistory StoreLabel := .ofFn (new timeoutSecs) step

def lookup (s : StoreHistory) (id : String) : Option TwoPhaseTransaction :=
  s.store.transactions.lookup id

/-- The `n`-th transaction of the id is in the table, in the state `state`. -/
def Holds (s : StoreHistory) (id : String) (n : Nat) (state : TransactionState) : Prop :=
  s.begun id = n ∧ ∃ txn, s.lookup id = some txn ∧ txn.state = state

/-- A prepared or committed transaction carries a position. -/
def Positioned (s : StoreHistory) : Prop :=
  ∀ id txn, s.lookup id = some txn → txn.state = .prepared ∨ txn.state = .committed →
    txn.position.isSome

/-- What a step may do to committed transactions: one is committed only by the commit of a prepared
one, and it leaves the table only by the removal its own commit has scheduled. -/
structure StepSafe (s : StoreHistory) (l : StoreLabel) (s' : StoreHistory) : Prop where
  entered : ∀ id n, s'.Holds id n .committed →
    s.Holds id n .committed ∨ s.Holds id n .prepared ∧ l = .commit id
  kept : ∀ id n, s.Holds id n .committed →
    l ≠ .abort id ∧ (s'.Holds id n .committed ∨ l = .removal id n)

/-- The step does not abort a committed transaction. -/
def AbortsUncommitted (s : StoreHistory) (l : StoreLabel) : Prop :=
  ∀ id n, l = .abort id → ¬ s.Holds id n .committed

/-- A removal to come is for a committed transaction that is still in the table, and there is one
removal for each id at most. -/
structure Inv (s : StoreHistory) : Prop where
  positioned : s.Positioned
  due : ∀ id n, (id, n) ∈ s.scheduled → s.Holds id n .committed
  nodup : s.scheduled.Nodup

/-! ## What a step does to one transaction -/

/-- What a step does to the transactions of one id. -/
inductive Change (s : StoreHistory) (l : StoreLabel) (s' : StoreHistory) (id : String) : Prop
  | same (hbegun : s'.begun id = s.begun id) (hlookup : s'.lookup id = s.lookup id)
  | begun (txn : TwoPhaseTransaction) (hnone : s.lookup id = none)
      (hsome : s'.lookup id = some txn) (hstate : txn.state = .started)
  | prepared (txn : TwoPhaseTransaction) (position : Position)
      (hbegun : s'.begun id = s.begun id) (hsome : s.lookup id = some txn)
      (hstate : txn.state = .started)
      (hsome' : s'.lookup id = some { txn with position := some position, state := .prepared })
  | committed (txn : TwoPhaseTransaction) (hl : l = .commit id)
      (hbegun : s'.begun id = s.begun id) (hsome : s.lookup id = some txn)
      (hstate : txn.state = .prepared)
        (hsome' : s'.lookup id = some { txn with state := .committed })
  | gone (hbegun : s'.begun id = s.begun id) (hnone : s'.lookup id = none)
      (hwhy : l = .abort id ∨ (∀ txn, s.lookup id = some txn → txn.state ≠ .committed) ∨
        ∃ n, l = .removal id n ∧ (id, n) ∈ s.scheduled)

variable {s s' : StoreHistory} {l : StoreLabel}

theorem change_begin {now : Nat} {transactionId taskId : String} {id : String}
    (h : s.step (.beginTransaction now transactionId taskId) = some s') :
    Change s (.beginTransaction now transactionId taskId) s' id := by
  simp only [step, Option.some.injEq] at h
  subst h
  have hlookup := s.store.lookup_beginTransaction now transactionId taskId id
  by_cases hnew : id = transactionId ∧ s.lookup id = none
  · exact .begun _ hnew.2 (hlookup.trans (if_pos hnew)) rfl
  · refine .same ?_ (hlookup.trans (if_neg hnew))
    cases hr : (s.store.beginTransaction now transactionId taskId).1 with
    | error e => simp [countBegun]
    | ok u =>
      -- the call succeeds for a free id only, and this one is another or is taken
      have hfree := (beginTransaction_ok _ _ _ _).mp hr
      have hne : id ≠ transactionId := fun h => hnew ⟨h, h ▸ hfree⟩
      simp [countBegun, hne]

/-- A step that advances the id's transaction from one state, and leaves all others. -/
theorem change_advance {transactionId id : String} {state : TransactionState}
    {f : TwoPhaseTransaction → TwoPhaseTransaction} (hbegun : s'.begun id = s.begun id)
    (hlookup : s'.lookup id =
      if id = transactionId then (s.lookup id).map fun txn =>
        if txn.state = state then f txn else txn
      else s.lookup id)
    (hadvance : ∀ txn, id = transactionId → s.lookup id = some txn → txn.state = state →
      s'.lookup id = some (f txn) → Change s l s' id) : Change s l s' id := by
  by_cases hid : id = transactionId
  · rw [if_pos hid] at hlookup
    cases hsome : s.lookup id with
    | none => exact .same hbegun (by rw [hlookup, hsome, Option.map_none])
    | some txn =>
      rw [hsome, Option.map_some] at hlookup
      by_cases hstate : txn.state = state
      · exact hadvance txn hid hsome hstate (hlookup.trans (by rw [if_pos hstate]))
      · exact .same hbegun (by rw [hlookup, hsome, if_neg hstate])
  · exact .same hbegun (hlookup.trans (if_neg hid))

theorem change_prepare {transactionId : String} {position : Position} {id : String}
    (h : s.step (.prepare transactionId position) = some s') :
    Change s (.prepare transactionId position) s' id := by
  simp only [step, Option.some.injEq] at h
  subst h
  refine change_advance rfl (s.store.lookup_prepare transactionId id position) ?_
  intro txn _ hsome hstate hsome'
  exact .prepared txn position rfl hsome hstate hsome'

theorem change_commit {transactionId : String} {id : String}
    (h : s.step (.commit transactionId) = some s') : Change s (.commit transactionId) s' id := by
  simp only [step, Option.some.injEq] at h
  subst h
  refine change_advance rfl (s.store.lookup_commit transactionId id) ?_
  rintro txn rfl hsome hstate hsome'
  exact .committed txn rfl rfl hsome hstate hsome'

theorem change_cleanup {now : Nat} {id : String} (h : s.step (.cleanup now) = some s') :
    Change s (.cleanup now) s' id := by
  simp only [step, Option.some.injEq] at h
  subst h
  have hlookup := s.store.lookup_cleanupStaleTransactions now id
  cases hsome : s.lookup id with
  | none =>
    have hsome' : s.store.transactions.lookup id = none := hsome
    exact .same rfl (by rw [hsome, lookup, hlookup, hsome', Option.filter_none])
  | some txn =>
    have hsome' : s.store.transactions.lookup id = some txn := hsome
    rw [hsome'] at hlookup
    by_cases hstale : s.store.isStale now txn = true
    · refine .gone rfl (hlookup.trans (by simp [Option.filter, hstale])) (.inr (.inl ?_))
      intro txn' htxn'
      obtain rfl := Option.some.inj (hsome.symm.trans htxn')
      simp only [isStale, Bool.and_eq_true, decide_eq_true_eq] at hstale
      exact hstale.2
    · exact .same rfl (by rw [hsome, lookup, hlookup]; simp [Option.filter, hstale])

/-- **One step and one id.** -/
theorem step_change (h : s.step l = some s') (id : String) : Change s l s' id := by
  cases l with
  | beginTransaction now transactionId taskId => exact change_begin h
  | prepare transactionId position => exact change_prepare h
  | commit transactionId => exact change_commit h
  | cleanup now => exact change_cleanup h
  | abort transactionId =>
    simp only [step, Option.some.injEq] at h
    subst h
    have hlookup := s.store.lookup_abort transactionId id
    by_cases hid : id = transactionId
    · subst hid
      exact .gone rfl (hlookup.trans (if_pos rfl)) (.inl rfl)
    · exact .same rfl (hlookup.trans (if_neg hid))
  | removal transactionId n =>
    simp only [step, Option.ite_none_right_eq_some, Option.some.injEq] at h
    obtain ⟨hmem, rfl⟩ := h
    have hlookup := s.store.lookup_runRemoval transactionId id
    by_cases hid : id = transactionId
    · subst hid
      exact .gone rfl (hlookup.trans (if_pos rfl)) (.inr (.inr ⟨n, rfl, hmem⟩))
    · exact .same rfl (hlookup.trans (if_neg hid))

/-! ## The removals to come -/

theorem mem_scheduled (h : s.step l = some s') (hnodup : s.scheduled.Nodup) {id : String} {n : Nat}
    (hmem : (id, n) ∈ s'.scheduled) :
    ((id, n) ∈ s.scheduled ∧ l ≠ .removal id n) ∨
      (s.Holds id n .prepared ∧ s'.Holds id n .committed) := by
  cases l with
  | removal transactionId m =>
    simp only [step, Option.ite_none_right_eq_some, Option.some.injEq] at h
    obtain ⟨-, rfl⟩ := h
    have herase := (hnodup.mem_erase_iff).mp hmem
    refine .inl ⟨herase.2, fun hl => herase.1 ?_⟩
    simp only [StoreLabel.removal.injEq] at hl
    rw [hl.1, hl.2]
  | commit transactionId =>
    have hchange : Change s (.commit transactionId) s' id := change_commit h
    simp only [step, Option.some.injEq] at h
    subst h
    cases hr : (s.store.commit transactionId).1 with
    | error e =>
      simp only [scheduleRemoval, hr] at hmem
      exact .inl ⟨hmem, nofun⟩
    | ok u =>
      simp only [scheduleRemoval, hr, List.mem_append, List.mem_singleton, Prod.mk.injEq] at hmem
      rcases hmem with hmem | ⟨rfl, rfl⟩
      · exact .inl ⟨hmem, nofun⟩
      · obtain ⟨txn, hsome, hstate⟩ := (commit_ok _ _).mp hr
        have hlookup := s.store.lookup_commit id id
        rw [if_pos rfl, hsome, Option.map_some, if_pos hstate] at hlookup
        exact .inr ⟨⟨rfl, txn, hsome, hstate⟩, rfl, _, hlookup, rfl⟩
  | beginTransaction | prepare | abort | cleanup =>
    simp only [step, Option.some.injEq] at h
    subst h
    exact .inl ⟨hmem, nofun⟩

theorem Holds.unique {id : String} {n m : Nat} {state state' : TransactionState}
    (h : s.Holds id n state) (h' : s.Holds id m state') : n = m ∧ state = state' := by
  obtain ⟨rfl, txn, hsome, rfl⟩ := h
  obtain ⟨rfl, txn', hsome', rfl⟩ := h'
  obtain rfl := Option.some.inj (hsome.symm.trans hsome')
  exact ⟨rfl, rfl⟩

theorem scheduled_nodup (hinv : s.Inv) (h : s.step l = some s') : s'.scheduled.Nodup := by
  cases l with
  | removal transactionId m =>
    simp only [step, Option.ite_none_right_eq_some, Option.some.injEq] at h
    obtain ⟨-, rfl⟩ := h
    exact hinv.nodup.erase _
  | commit transactionId =>
    simp only [step, Option.some.injEq] at h
    subst h
    cases hr : (s.store.commit transactionId).1 with
    | error e => simpa [scheduleRemoval, hr] using hinv.nodup
    | ok u =>
      -- what is committed now was prepared, and what has a removal to come is committed
      obtain ⟨txn, hsome, hstate⟩ := (commit_ok _ _).mp hr
      have hnew : (transactionId, s.begun transactionId) ∉ s.scheduled := fun hmem =>
        nomatch (Holds.unique ⟨rfl, txn, hsome, hstate⟩ (hinv.due _ _ hmem)).2
      show (s.scheduleRemoval transactionId (.ok u)).Nodup
      simpa [scheduleRemoval, List.nodup_append] using
        ⟨hinv.nodup, fun id n hmem hid hn => by subst hid hn; exact hnew hmem⟩
  | beginTransaction | prepare | abort | cleanup =>
    simp only [step, Option.some.injEq] at h
    subst h
    exact hinv.nodup

/-! ## Safety -/

/-- Positions are set by `prepare`, and no other method changes them. -/
theorem Positioned.step (hpos : s.Positioned) (h : s.step l = some s') : s'.Positioned := by
  intro id txn' htxn' hstate'
  cases step_change h id with
  | same _ hlookup => exact hpos id txn' (hlookup ▸ htxn') hstate'
  | begun txn _ hsome hstate =>
    obtain rfl := Option.some.inj (hsome.symm.trans htxn')
    simp [hstate] at hstate'
  | prepared txn position _ _ _ hsome' =>
    obtain rfl := Option.some.inj (hsome'.symm.trans htxn')
    rfl
  | committed txn _ _ hsome hstate hsome' =>
    obtain rfl := Option.some.inj (hsome'.symm.trans htxn')
    exact hpos id txn hsome (.inl hstate)
  | gone _ hnone _ => simp [hnone] at htxn'

/-- A committed transaction stays committed, unless it is aborted or removed on schedule. -/
theorem Holds.step (hinv : s.Inv) (h : s.step l = some s') {id : String} {n : Nat}
    (hheld : s.Holds id n .committed) (habort : l ≠ .abort id) :
    s'.Holds id n .committed ∨ l = .removal id n := by
  obtain ⟨hn, txn, hsome, hstate⟩ := hheld
  cases step_change h id with
  | same hbegun hlookup => exact .inl ⟨hbegun.trans hn, txn, hlookup.trans hsome, hstate⟩
  | begun _ hnone _ _ => simp [hnone] at hsome
  | prepared txn' _ _ hsome' hstate' _ =>
    obtain rfl := Option.some.inj (hsome.symm.trans hsome')
    simp [hstate] at hstate'
  | committed txn' _ _ hsome' hstate' _ =>
    obtain rfl := Option.some.inj (hsome.symm.trans hsome')
    simp [hstate] at hstate'
  | gone _ _ hwhy =>
    rcases hwhy with rfl | hnot | ⟨m, rfl, hmem⟩
    · exact absurd rfl habort
    · exact absurd hstate (hnot txn hsome)
    · -- the removal is the one its own commit scheduled
      obtain ⟨rfl, -⟩ := (hinv.due id m hmem).unique ⟨hn, txn, hsome, hstate⟩
      exact .inr rfl

theorem Inv.step (hinv : s.Inv) (habort : s.AbortsUncommitted l) (h : s.step l = some s') :
    s'.Inv where
  positioned := hinv.positioned.step h
  nodup := scheduled_nodup hinv h
  due id n hmem := by
    rcases mem_scheduled h hinv.nodup hmem with ⟨hmem, hl⟩ | ⟨-, hheld⟩
    · have hheld := hinv.due id n hmem
      rcases hheld.step hinv h (fun hl => habort id n hl hheld) with hheld' | hl'
      · exact hheld'
      · exact absurd hl' hl
    · exact hheld

theorem new_inv (timeoutSecs : Nat) : (new timeoutSecs).Inv where
  positioned id txn h := by simp [lookup, new, TwoPhaseCommit.new] at h
  due id n h := by simp [new] at h
  nodup := List.nodup_nil

theorem reachable_inv {timeoutSecs : Nat}
    (h : ((machine timeoutSecs).restrict AbortsUncommitted).Reachable s) : s.Inv :=
  h.invariant (fun _ hs => hs ▸ new_inv timeoutSecs) fun _ _ _ hinv hs => hinv.step hs.1 hs.2

/-- `Committed` is entered from `Prepared`, by `commit`. -/
theorem committed_entered (h : s.step l = some s') {id : String} {n : Nat}
    (hheld : s'.Holds id n .committed) :
    s.Holds id n .committed ∨ s.Holds id n .prepared ∧ l = .commit id := by
  obtain ⟨hn, txn', htxn', hstate'⟩ := hheld
  cases step_change h id with
  | same hbegun hlookup => exact .inl ⟨hbegun ▸ hn, txn', hlookup ▸ htxn', hstate'⟩
  | begun txn _ hsome hstate =>
    obtain rfl := Option.some.inj (hsome.symm.trans htxn')
    simp [hstate] at hstate'
  | prepared txn position _ _ _ hsome' =>
    obtain rfl := Option.some.inj (hsome'.symm.trans htxn')
    simp at hstate'
  | committed txn hl hbegun hsome hstate hsome' =>
      exact .inr ⟨⟨hbegun ▸ hn, txn, hsome, hstate⟩, hl⟩
  | gone _ hnone _ => simp [hnone] at htxn'

/-- In every state of a run that aborts no committed transaction, whatever the ids, prepared and
committed transactions carry positions, and the next step is safe exactly when it aborts no
committed transaction either. -/
theorem store_step_safe_iff (timeoutSecs : Nat) (s : StoreHistory)
    (h : ((machine timeoutSecs).restrict AbortsUncommitted).Reachable s) :
    s.Positioned ∧
      ∀ l s', s.step l = some s' → (s.StepSafe l s' ↔ s.AbortsUncommitted l) := by
  have hinv := reachable_inv h
  refine ⟨hinv.positioned, fun l s' hs => ⟨fun hsafe id n hl hheld => ?_, fun habort => ?_⟩⟩
  · exact (hsafe.kept id n hheld).1 hl
  · exact {
      entered := fun id n hheld => committed_entered hs hheld
      kept := fun id n hheld =>
        have hl : l ≠ .abort id := fun hl => habort id n hl hheld
        ⟨hl, hheld.step hinv hs hl⟩ }

/-! ## A committed transaction that is aborted -/

/-- One transaction is begun, prepared and committed. -/
def committedRun (now : Nat) (position : Position) : List StoreLabel :=
  [.beginTransaction now "t" "books", .prepare "t" position, .commit "t"]

/-- It is aborted then, and another one is committed under its id. -/
def reusedRun : List StoreLabel :=
  committedRun 0 (.postgreSQL "0/10") ++ .abort "t" :: committedRun 1 (.postgreSQL "0/20")

theorem committedRun_holds :
    ∃ s, (machine 30).Reachable s ∧ s.Holds "t" 1 .committed :=
  have hrun : Machine.runFn step (new 30) (committedRun 0 (.postgreSQL "0/10")) = some _ := rfl
  ⟨_, Machine.reachable_of_runFn (.init rfl) hrun, rfl, _, rfl, rfl⟩

theorem reusedRun_holds :
    ∃ s s', (machine 30).Reachable s ∧ s.Holds "t" 2 .committed ∧
      s.step (.removal "t" 1) = some s' ∧ s'.lookup "t" = none :=
  have hrun : Machine.runFn step (new 30) reusedRun = some _ := rfl
  ⟨_, _, Machine.reachable_of_runFn (.init rfl) hrun, ⟨rfl, _, rfl, rfl⟩, rfl, rfl⟩

/-- A committed transaction can be aborted, and the removal scheduled for it can remove another
committed transaction. -/
theorem store_not_always_safe :
    (∃ s s', (machine 30).Reachable s ∧ s.step (.abort "t") = some s' ∧
      ¬ s.StepSafe (.abort "t") s') ∧
    ∃ s s', (machine 30).Reachable s ∧ s.step (.removal "t" 1) = some s' ∧
      ¬ s.StepSafe (.removal "t" 1) s' := by
  constructor
  · obtain ⟨s, hr, hheld⟩ := committedRun_holds
    exact ⟨s, _, hr, rfl, fun hsafe => (hsafe.kept "t" 1 hheld).1 rfl⟩
  · obtain ⟨s, s', hr, hheld, hs, hgone⟩ := reusedRun_holds
    refine ⟨s, s', hr, hs, fun hsafe => ?_⟩
    rcases (hsafe.kept "t" 2 hheld).2 with ⟨-, txn, hsome, -⟩ | hl
    · simp [hgone] at hsome
    · simp at hl

/-- The condition and the rule at work on a committed transaction. -/
theorem store_step_safe_iff_committed :
    ∃ s, ((machine 30).restrict AbortsUncommitted).Reachable s ∧ s.Holds "t" 1 .committed ∧
      s.Positioned ∧ ∀ l s', s.step l = some s' → (s.StepSafe l s' ↔ s.AbortsUncommitted l) := by
  have h₀ : ((machine 30).restrict AbortsUncommitted).Reachable (new 30) := .init rfl
  have h₁ := h₀.restrict_step (.beginTransaction 0 "t" "books") nofun rfl
  have h₂ := h₁.restrict_step (.prepare "t" (.postgreSQL "0/10")) nofun rfl
  have h₃ := h₂.restrict_step (.commit "t") nofun rfl
  exact ⟨_, h₃, ⟨rfl, _, rfl, rfl⟩, store_step_safe_iff 30 _ h₃⟩

end StoreHistory

end TwoPhaseCommit

end MeiliBridge
