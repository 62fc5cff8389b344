import MeiliBridge.Recovery.BreakerLog

/-!
# The window of failures

`window_duration` is read nowhere: the breaker opens on a number of failures in a row, however long
ago the first of them was. `opens_in_window` says when the failures that open it are recent.
-/

set_option autoImplicit false

namespace MeiliBridge

namespace CircuitBreaker

/-- An outcome, not a request -/
def Entry.isOutcome (e : Entry) : Bool := e.op = .recordSuccess ∨ e.op = .recordFailure

/-- The recorded outcomes, the last one first -/
def outcomes (log : List Entry) : List Entry := log.filter Entry.isOutcome

/-- Each time that the breaker has opened from `Closed`, it was at a failure, and the last outcomes,
as many as the threshold, were failures within the window. -/
def OpenedInWindow (config : CircuitBreakerConfig) : List Entry → Prop :=
  History.Each fun e before => e.before = .closed → e.after = .opened →
    e.op = .recordFailure ∧ config.failureThreshold ≤ (outcomes (e :: before)).length ∧
      ∀ o ∈ (outcomes (e :: before)).take config.failureThreshold,
        o.op = .recordFailure ∧ e.time ≤ o.time + config.windowDuration

/-- When the counter of failures reaches the threshold, the outcome with which it began is
recent. -/
def BeganInWindow (counting : Counting) (config : CircuitBreakerConfig) (s : Logged) (op : Op) :
    Prop :=
  op = .recordFailure → s.breaker.state = .closed →
    config.failureThreshold ≤ counting.next s.breaker.stats.consecutiveFailures →
    2 ≤ config.failureThreshold →
    ∀ o, (outcomes s.log)[config.failureThreshold - 2]? = some o →
      s.clocked.now ≤ o.time + config.windowDuration

variable {counting : Counting} {config : CircuitBreakerConfig} {s : Logged} {op : Op}

/-- What the counter of failures counts -/
structure FailuresCounted (s : Logged) : Prop where
  enough : s.breaker.stats.consecutiveFailures ≤ (outcomes s.log).length
  failures : ∀ o ∈ (outcomes s.log).take s.breaker.stats.consecutiveFailures,
    o.op = .recordFailure
  past : ∀ e ∈ s.log, e.time ≤ s.clocked.now
  inOrder : History.InOrder Entry.time s.log

theorem outcomes_cons (e : Entry) (log : List Entry) :
    outcomes (e :: log) = if e.isOutcome then e :: outcomes log else outcomes log :=
  List.filter_cons

theorem inOrder_outcomes (h : History.InOrder Entry.time s.log) :
    History.InOrder Entry.time (outcomes s.log) :=
  List.Pairwise.filter _ h

/-- One more failure, if the counter does not wrap -/
theorem FailuresCounted.next (h : FailuresCounted s) {n : Nat}
    (hn : n ≤ counting.next s.breaker.stats.consecutiveFailures) {e : Entry}
    (he : e.op = .recordFailure) :
    n ≤ (e :: outcomes s.log).length ∧
      ∀ o ∈ (e :: outcomes s.log).take n, o.op = .recordFailure := by
  have hle := Nat.le_trans hn (counting.next_le _)
  refine ⟨Nat.le_trans hle (Nat.succ_le_succ h.enough), ?_⟩
  intro o ho
  have hmem : o ∈ (e :: outcomes s.log).take (s.breaker.stats.consecutiveFailures + 1) :=
    List.take_subset_take_left _ hle ho
  rw [List.take_succ_cons, List.mem_cons] at hmem
  rcases hmem with rfl | hmem
  · exact he
  · exact h.failures o hmem

/-- The statistics of failures change with outcomes only. -/
theorem consecutiveFailures_step (hop : Automatic op) :
    (s.step counting config op).breaker.stats.consecutiveFailures =
      if op = .recordFailure then counting.next s.breaker.stats.consecutiveFailures
      else if op = .recordSuccess then 0 else s.breaker.stats.consecutiveFailures := by
  cases op with
  | isAllowed =>
    show (s.breaker.isAllowed config s.clocked.now).2.stats.consecutiveFailures = _
    rcases isAllowed_cases config s.clocked.now s.breaker with ⟨-, heq⟩ | ⟨-, -, heq⟩ |
      ⟨-, -, heq⟩ | ⟨-, -, heq⟩ | ⟨-, -, heq⟩
    all_goals simp [heq]
  | recordSuccess =>
    show (s.breaker.recordSuccess counting config).stats.consecutiveFailures = 0
    rcases recordSuccess_cases counting config s.breaker with ⟨-, -, heq⟩ | ⟨-, heq⟩
    · rw [heq]
      rfl
    · rw [heq]
      rfl
  | recordFailure =>
    show (s.breaker.recordFailure counting config s.clocked.now).stats.consecutiveFailures =
      counting.next s.breaker.stats.consecutiveFailures
    rcases recordFailure_cases counting config s.clocked.now s.breaker with ⟨-, -, heq⟩ |
      ⟨-, -, heq⟩ | ⟨-, heq⟩
    all_goals
      rw [heq]
      rfl
  | setState newState => exact absurd rfl (hop newState)
  | wait duration => rfl

theorem FailuresCounted.step (hop : Automatic op) (h : FailuresCounted s) :
    FailuresCounted (s.step counting config op) := by
  have hcounter := @consecutiveFailures_step counting config s op hop
  have hnow : s.clocked.now ≤ (s.step counting config op).clocked.now := by
    cases op with
    | wait duration => exact Nat.le_add_right _ _
    | _ => exact Nat.le_refl _
  have hlog : outcomes (s.step counting config op).log =
      if (s.entry counting config op).isOutcome then
        s.entry counting config op :: outcomes s.log else outcomes s.log := outcomes_cons _ _
  have hcounts : (s.step counting config op).breaker.stats.consecutiveFailures ≤
        (outcomes (s.step counting config op).log).length ∧
      ∀ o ∈ (outcomes (s.step counting config op).log).take
        (s.step counting config op).breaker.stats.consecutiveFailures, o.op = .recordFailure := by
    rw [hcounter, hlog]
    cases op with
    | recordFailure => exact h.next (Nat.le_refl _) rfl
    | recordSuccess => simp
    | isAllowed => exact ⟨h.enough, h.failures⟩
    | setState newState => exact absurd rfl (hop newState)
    | wait duration => exact ⟨h.enough, h.failures⟩
  refine ⟨hcounts.1, hcounts.2, ?_, ?_⟩
  · intro e he
    rcases List.mem_cons.mp he with rfl | he
    · exact hnow
    · exact Nat.le_trans (h.past e he) hnow
  · exact List.pairwise_cons.mpr ⟨h.past, h.inOrder⟩

/-- From `Closed` only a failure opens the breaker, when it makes the number full. -/
theorem opening_iff (hop : Automatic op) (hold : s.breaker.state = .closed) :
    (s.step counting config op).breaker.state = .opened ↔ op = .recordFailure ∧
      config.failureThreshold ≤ counting.next s.breaker.stats.consecutiveFailures := by
  cases op with
  | isAllowed =>
    show (s.breaker.isAllowed config s.clocked.now).2.state = .opened ↔ _
    simp [isAllowed_closed hold, hold]
  | recordSuccess =>
    show (s.breaker.recordSuccess counting config).state = .opened ↔ _
    rw [recordSuccess_counts (by simp [hold])]
    simp [hold]
  | recordFailure =>
    show (s.breaker.recordFailure counting config s.clocked.now).state = .opened ↔ _
    by_cases hreached : config.failureThreshold ≤ counting.next s.breaker.stats.consecutiveFailures
    · simp [recordFailure_opens hold hreached, hreached]
    · rw [recordFailure_counts (by simp [hold]) fun _ => hreached]
      simp [hold, hreached]
  | setState newState => exact absurd rfl (hop newState)
  | wait duration =>
    show s.breaker.state = .opened ↔ _
    simp [hold]

/-- The last failures are recent exactly if the first of them is. -/
theorem FailuresCounted.recent_iff (h : FailuresCounted s) {e : Entry}
    (he : e.time = s.clocked.now) {n : Nat} {window : Nat}
    (hn : n ≤ (outcomes s.log).length + 1) :
    (∀ o ∈ (e :: outcomes s.log).take n, e.time ≤ o.time + window) ↔
      (2 ≤ n → ∀ o, (outcomes s.log)[n - 2]? = some o → s.clocked.now ≤ o.time + window) := by
  constructor
  · intro hall htwo oldest holdest
    rw [← he]
    apply hall
    obtain ⟨m, rfl⟩ := Nat.exists_eq_add_of_le' htwo
    rw [List.take_succ_cons]
    apply List.mem_cons_of_mem
    apply List.mem_of_getElem? (i := m)
    rw [List.getElem?_take_of_lt (Nat.lt_succ_self m)]
    exact holdest
  · intro hrecent o ho
    cases n with
    | zero => simp at ho
    | succ n =>
      rw [List.take_succ_cons, List.mem_cons] at ho
      rcases ho with rfl | ho
      · exact Nat.le_add_right _ _
      · cases n with
        | zero => simp at ho
        | succ m =>
          have hm : m < (outcomes s.log).length := by omega
          have holdest : (outcomes s.log)[m]? = some (outcomes s.log)[m] :=
            List.getElem?_eq_getElem hm
          have hnow := hrecent (by omega) _ holdest
          have hle := (inOrder_outcomes h.inOrder).le_of_mem_take holdest ho
          omega

/-- **A step keeps to the window exactly if** the failure that it opens on began its count there. -/
theorem openedInWindow_step_iff (hop : Automatic op) (h : FailuresCounted s)
    (hlog : OpenedInWindow config s.log) :
    OpenedInWindow config (s.step counting config op).log ↔
      BeganInWindow counting config s op := by
  have hcons : OpenedInWindow config (s.step counting config op).log ↔
      (s.breaker.state = .closed → (s.step counting config op).breaker.state = .opened →
        op = .recordFailure ∧
          config.failureThreshold ≤
            (outcomes (s.entry counting config op :: s.log)).length ∧
          ∀ o ∈ (outcomes (s.entry counting config op :: s.log)).take config.failureThreshold,
            o.op = .recordFailure ∧ s.clocked.now ≤ o.time + config.windowDuration) := by
    apply History.each_cons.trans
    exact and_iff_left hlog
  rw [hcons]
  constructor
  · rintro hopens rfl hold hreached
    obtain ⟨-, hlength, hall⟩ :=
      hopens hold ((opening_iff hop hold).mpr ⟨rfl, hreached⟩)
    apply (h.recent_iff (e := s.entry counting config .recordFailure) rfl hlength).mp
    intro o ho
    exact (hall o ho).2
  · intro hbegan hold hnew
    obtain ⟨rfl, hreached⟩ := (opening_iff hop hold).mp hnew
    obtain ⟨hlength, hfailures⟩ :=
      h.next hreached (e := s.entry counting config .recordFailure) rfl
    have hwindow := (h.recent_iff (e := s.entry counting config .recordFailure) rfl hlength).mpr
      (hbegan rfl hold hreached)
    refine ⟨rfl, hlength, ?_⟩
    intro o ho
    exact ⟨hfailures o ho, hwindow o ho⟩

/-- **The breaker opens on recent failures in a row**, as long as each count that reaches the
threshold began within the window; where one did not, the breaker opens all the same. -/
theorem opens_in_window (h : ((loggedMachine counting config).restrict fun s op =>
      Automatic op ∧ BeganInWindow counting config s op).Reachable s) :
    OpenedInWindow config s.log ∧ ∀ op, Automatic op →
      (OpenedInWindow config (s.step counting config op).log ↔
        BeganInWindow counting config s op) := by
  have hinv : FailuresCounted s ∧ OpenedInWindow config s.log := by
    apply h.invariant (I := fun s => FailuresCounted s ∧ OpenedInWindow config s.log)
    · rintro s ⟨now, rfl⟩
      refine ⟨⟨Nat.zero_le _, ?_, ?_, List.Pairwise.nil⟩, History.each_nil _⟩
      · simp [Logged.start, outcomes]
      · simp [Logged.start]
    · rintro s op s' ⟨hcounted, hlog⟩ ⟨⟨hop, hbegan⟩, rfl⟩
      exact ⟨hcounted.step hop, (openedInWindow_step_iff hop hcounted hlog).mpr hbegan⟩
  refine ⟨hinv.2, ?_⟩
  intro op hop
  exact openedInWindow_step_iff hop hinv.1 hinv.2

/-- Two failures open, within ten nanoseconds. -/
def twoFailures : CircuitBreakerConfig := ⟨2, 1, 10, 0, 1⟩

theorem opens_in_window_two :
    OpenedInWindow twoFailures (Logged.after .wrapping twoFailures
        [.recordFailure, .wait 10, .recordFailure]).log ∧
      ∀ op, Automatic op →
        (OpenedInWindow twoFailures ((Logged.after .wrapping twoFailures
            [.recordFailure, .wait 10, .recordFailure]).step .wrapping twoFailures op).log ↔
          BeganInWindow .wrapping twoFailures (.after .wrapping twoFailures
            [.recordFailure, .wait 10, .recordFailure]) op) := by
  apply opens_in_window
  apply reachable_after
  refine ⟨⟨by simp [Automatic], ?_⟩, ⟨by simp [Automatic], by simp [BeganInWindow]⟩,
    ⟨by simp [Automatic], ?_⟩, trivial⟩
  · intro _ _ _ _ o ho
    cases ho
  · intro _ _ _ _ o ho
    obtain rfl := Option.some.inj ho
    exact Nat.le_refl _

/-- Five failures, one every two minutes -/
def sparseFailures : List Op :=
  (List.replicate 5 [.recordFailure, .wait (fromSecs 120)]).flatten

theorem may_open_on_old_failures : ¬ ∀ (counting : Counting) (config : CircuitBreakerConfig)
    (s : Logged), ((loggedMachine counting config).restrict fun _ op => Automatic op).Reachable s →
      OpenedInWindow config s.log := by
  intro h
  have hopenings := h .wrapping .default (.after .wrapping .default sparseFailures) <| by
    apply reachable_after
    apply Trans.Machine.Along.of_forall
    simp [sparseFailures, Automatic]
  -- the last step is a wait, the one before it opens
  obtain ⟨-, -, hall⟩ := (History.each_cons.mp (History.each_cons.mp hopenings).2).1 rfl rfl
  have hfirst := hall ⟨.recordFailure, false, 0, .closed, .closed⟩ (by decide)
  exact absurd hfirst.2 (by decide)

end CircuitBreaker

end MeiliBridge
