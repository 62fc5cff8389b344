import MeiliBridge.Lib.Trans

/-!
# The circuit breaker

`CircuitBreaker` and its clock. Every method holds the write locks of the state and of the
statistics while it works, so that each call is one step. Times are nanoseconds.

Nothing bounds the two counters of consecutive outcomes. They are `u32`s that wrap in a release
build, whose profile has no overflow checks; what follows holds as well if they do not (`Counting`).
-/

set_option autoImplicit false

namespace MeiliBridge

inductive CircuitState where
  | closed
  | opened
  | halfOpen
  deriving DecidableEq

structure CircuitBreakerConfig where
  failureThreshold : Nat
  successThreshold : Nat
  windowDuration : Nat
  timeoutDuration : Nat
  halfOpenMaxRequests : Nat

/-- `Duration::from_secs` -/
def fromSecs (seconds : Nat) : Nat := seconds * 1000000000

/-- `CircuitBreakerConfig::default` -/
def CircuitBreakerConfig.default : CircuitBreakerConfig where
  failureThreshold := 5
  successThreshold := 3
  windowDuration := fromSecs 60
  timeoutDuration := fromSecs 30
  halfOpenMaxRequests := 3

/-- How `+= 1` counts outcomes -/
inductive Counting where
  | natural
  | wrapping

def Counting.next : Counting → Nat → Nat
  | .natural, n => n + 1
  | .wrapping, n => (n + 1) % 4294967296

theorem Counting.next_le (counting : Counting) (n : Nat) : counting.next n ≤ n + 1 := by
  cases counting with
  | natural => exact Nat.le_refl _
  | wrapping => exact Nat.mod_le _ _

structure CircuitStats where
  consecutiveFailures : Nat
  consecutiveSuccesses : Nat
  halfOpenRequests : Nat
  lastFailureTime : Option Nat
  circuitOpenedAt : Option Nat
  deriving DecidableEq

namespace CircuitStats

def new : CircuitStats := ⟨0, 0, 0, none, none⟩

/-- `record_success` -/
def recordSuccess (counting : Counting) (stats : CircuitStats) : CircuitStats :=
  { stats with
    consecutiveSuccesses := counting.next stats.consecutiveSuccesses
    consecutiveFailures := 0 }

/-- `record_failure` -/
def recordFailure (counting : Counting) (now : Nat) (stats : CircuitStats) : CircuitStats :=
  { stats with
    consecutiveFailures := counting.next stats.consecutiveFailures
    consecutiveSuccesses := 0
    lastFailureTime := some now }

/-- `reset` -/
def reset (_ : CircuitStats) : CircuitStats := ⟨0, 0, 0, none, none⟩

end CircuitStats

structure CircuitBreaker where
  state : CircuitState
  stats : CircuitStats
  deriving DecidableEq

namespace CircuitBreaker

def new : CircuitBreaker := ⟨.closed, .new⟩

/-- `is_allowed` -/
def isAllowed (config : CircuitBreakerConfig) (now : Nat) (b : CircuitBreaker) :
    Bool × CircuitBreaker :=
  match b.state with
  | .closed => (true, b)
  | .opened =>
    match b.stats.circuitOpenedAt with
    | some openedAt =>
      if config.timeoutDuration ≤ now - openedAt then
        (true, ⟨.halfOpen, { b.stats with halfOpenRequests := 0 }⟩)
      else (false, b)
    | none => (false, b)
  | .halfOpen =>
    if b.stats.halfOpenRequests < config.halfOpenMaxRequests then
      -- below a `u32`, so that this one does not wrap
      (true, { b with stats := { b.stats with halfOpenRequests := b.stats.halfOpenRequests + 1 } })
    else (false, b)

/-- `record_success` -/
def recordSuccess (counting : Counting) (config : CircuitBreakerConfig) (b : CircuitBreaker) :
    CircuitBreaker :=
  let stats := b.stats.recordSuccess counting
  match b.state with
  | .closed => { b with stats }
  | .opened => { b with stats }
  | .halfOpen =>
    if config.successThreshold ≤ stats.consecutiveSuccesses then ⟨.closed, stats.reset⟩
    else { b with stats }

/-- `record_failure` -/
def recordFailure (counting : Counting) (config : CircuitBreakerConfig) (now : Nat)
    (b : CircuitBreaker) : CircuitBreaker :=
  let stats := b.stats.recordFailure counting now
  match b.state with
  | .closed =>
    if config.failureThreshold ≤ stats.consecutiveFailures then
      ⟨.opened, { stats with circuitOpenedAt := some now }⟩
    else { b with stats }
  | .opened => { b with stats }
  | .halfOpen => ⟨.opened, { stats with circuitOpenedAt := some now, halfOpenRequests := 0 }⟩

/-- `set_state` -/
def setState (now : Nat) (b : CircuitBreaker) : CircuitState → CircuitBreaker
  | .closed => ⟨.closed, b.stats.reset⟩
  | .opened => ⟨.opened, { b.stats with circuitOpenedAt := some now }⟩
  | .halfOpen => ⟨.halfOpen, { b.stats with halfOpenRequests := 0 }⟩

/-! ## What each method does -/

/-- The circuit has been open for the timeout. -/
def TimeoutOver (config : CircuitBreakerConfig) (now : Nat) (b : CircuitBreaker) : Prop :=
  ∃ openedAt, b.stats.circuitOpenedAt = some openedAt ∧ config.timeoutDuration ≤ now - openedAt

variable {counting : Counting} {config : CircuitBreakerConfig} {now : Nat} {b : CircuitBreaker}

theorem isAllowed_closed (h : b.state = .closed) : b.isAllowed config now = (true, b) := by
  simp [isAllowed, h]

theorem isAllowed_probe (h : b.state = .opened) (hover : b.TimeoutOver config now) :
    b.isAllowed config now = (true, ⟨.halfOpen, { b.stats with halfOpenRequests := 0 }⟩) := by
  obtain ⟨openedAt, hopened, htimeout⟩ := hover
  simp [isAllowed, h, hopened, htimeout]

theorem isAllowed_waiting (h : b.state = .opened) (hover : ¬ b.TimeoutOver config now) :
    b.isAllowed config now = (false, b) := by
  simp only [isAllowed, h]
  cases hopened : b.stats.circuitOpenedAt with
  | none => rfl
  | some openedAt =>
    have htimeout : ¬ config.timeoutDuration ≤ now - openedAt := by
      intro hle
      exact hover ⟨openedAt, hopened, hle⟩
    simp [htimeout]

theorem isAllowed_slot (h : b.state = .halfOpen)
    (hslot : b.stats.halfOpenRequests < config.halfOpenMaxRequests) :
    b.isAllowed config now = (true, { b with
      stats := { b.stats with halfOpenRequests := b.stats.halfOpenRequests + 1 } }) := by
  simp [isAllowed, h, hslot]

theorem isAllowed_full (h : b.state = .halfOpen)
    (hfull : config.halfOpenMaxRequests ≤ b.stats.halfOpenRequests) :
    b.isAllowed config now = (false, b) := by
  simp [isAllowed, h, hfull]

/-- Everything that `is_allowed` does -/
theorem isAllowed_cases (config : CircuitBreakerConfig) (now : Nat) (b : CircuitBreaker) :
    (b.state = .closed ∧ b.isAllowed config now = (true, b)) ∨
    (b.state = .opened ∧ b.TimeoutOver config now ∧
      b.isAllowed config now = (true, ⟨.halfOpen, { b.stats with halfOpenRequests := 0 }⟩)) ∨
    (b.state = .opened ∧ ¬ b.TimeoutOver config now ∧ b.isAllowed config now = (false, b)) ∨
    (b.state = .halfOpen ∧ b.stats.halfOpenRequests < config.halfOpenMaxRequests ∧
      b.isAllowed config now = (true, { b with
        stats := { b.stats with halfOpenRequests := b.stats.halfOpenRequests + 1 } })) ∨
    (b.state = .halfOpen ∧ config.halfOpenMaxRequests ≤ b.stats.halfOpenRequests ∧
      b.isAllowed config now = (false, b)) := by
  cases h : b.state with
  | closed => exact .inl ⟨rfl, isAllowed_closed h⟩
  | opened =>
    by_cases hover : b.TimeoutOver config now
    · exact .inr (.inl ⟨rfl, hover, isAllowed_probe h hover⟩)
    · exact .inr (.inr (.inl ⟨rfl, hover, isAllowed_waiting h hover⟩))
  | halfOpen =>
    rcases Nat.lt_or_ge b.stats.halfOpenRequests config.halfOpenMaxRequests with hslot | hfull
    · exact .inr (.inr (.inr (.inl ⟨rfl, hslot, by rw [isAllowed_slot h hslot, h]⟩)))
    · exact .inr (.inr (.inr (.inr ⟨rfl, hfull, isAllowed_full h hfull⟩)))

theorem recordSuccess_closes (h : b.state = .halfOpen)
    (hreached : config.successThreshold ≤ counting.next b.stats.consecutiveSuccesses) :
    b.recordSuccess counting config = ⟨.closed, .new⟩ := by
  simp [recordSuccess, h, CircuitStats.recordSuccess, hreached, CircuitStats.reset,
    CircuitStats.new]

theorem recordSuccess_counts (h : b.state = .halfOpen →
      ¬ config.successThreshold ≤ counting.next b.stats.consecutiveSuccesses) :
    b.recordSuccess counting config = { b with stats := b.stats.recordSuccess counting } := by
  cases hstate : b.state with
  | closed => simp [recordSuccess, hstate]
  | opened => simp [recordSuccess, hstate]
  | halfOpen => simp [recordSuccess, hstate, CircuitStats.recordSuccess, h hstate]

/-- Everything that `record_success` does -/
theorem recordSuccess_cases (counting : Counting) (config : CircuitBreakerConfig)
    (b : CircuitBreaker) :
    (b.state = .halfOpen ∧ config.successThreshold ≤ counting.next b.stats.consecutiveSuccesses ∧
      b.recordSuccess counting config = ⟨.closed, .new⟩) ∨
    ((b.state = .halfOpen →
        ¬ config.successThreshold ≤ counting.next b.stats.consecutiveSuccesses) ∧
      b.recordSuccess counting config = { b with stats := b.stats.recordSuccess counting }) := by
  by_cases hcloses : b.state = .halfOpen ∧
      config.successThreshold ≤ counting.next b.stats.consecutiveSuccesses
  · exact .inl ⟨hcloses.1, hcloses.2, recordSuccess_closes hcloses.1 hcloses.2⟩
  · have hcounts : b.state = .halfOpen →
        ¬ config.successThreshold ≤ counting.next b.stats.consecutiveSuccesses := by
      intro hstate hreached
      exact hcloses ⟨hstate, hreached⟩
    exact .inr ⟨hcounts, recordSuccess_counts hcounts⟩

theorem recordFailure_opens (h : b.state = .closed)
    (hreached : config.failureThreshold ≤ counting.next b.stats.consecutiveFailures) :
    b.recordFailure counting config now =
      ⟨.opened, { b.stats.recordFailure counting now with circuitOpenedAt := some now }⟩ := by
  simp [recordFailure, h, CircuitStats.recordFailure, hreached]

theorem recordFailure_counts (hhalf : b.state ≠ .halfOpen) (h : b.state = .closed →
      ¬ config.failureThreshold ≤ counting.next b.stats.consecutiveFailures) :
    b.recordFailure counting config now =
      { b with stats := b.stats.recordFailure counting now } := by
  cases hstate : b.state with
  | closed => simp [recordFailure, hstate, CircuitStats.recordFailure, h hstate]
  | opened => simp [recordFailure, hstate]
  | halfOpen => exact absurd hstate hhalf

theorem recordFailure_halfOpen (h : b.state = .halfOpen) :
    b.recordFailure counting config now = ⟨.opened, { b.stats.recordFailure counting now with
      circuitOpenedAt := some now, halfOpenRequests := 0 }⟩ := by
  simp [recordFailure, h]

/-- Everything that `record_failure` does -/
theorem recordFailure_cases (counting : Counting) (config : CircuitBreakerConfig) (now : Nat)
    (b : CircuitBreaker) :
    (b.state = .closed ∧ config.failureThreshold ≤ counting.next b.stats.consecutiveFailures ∧
      b.recordFailure counting config now =
        ⟨.opened, { b.stats.recordFailure counting now with circuitOpenedAt := some now }⟩) ∨
    (b.state ≠ .halfOpen ∧
      (b.state = .closed →
        ¬ config.failureThreshold ≤ counting.next b.stats.consecutiveFailures) ∧
      b.recordFailure counting config now =
        { b with stats := b.stats.recordFailure counting now }) ∨
    (b.state = .halfOpen ∧ b.recordFailure counting config now =
      ⟨.opened, { b.stats.recordFailure counting now with
        circuitOpenedAt := some now, halfOpenRequests := 0 }⟩) := by
  by_cases hhalf : b.state = .halfOpen
  · exact .inr (.inr ⟨hhalf, recordFailure_halfOpen hhalf⟩)
  · by_cases hopens : b.state = .closed ∧
        config.failureThreshold ≤ counting.next b.stats.consecutiveFailures
    · exact .inl ⟨hopens.1, hopens.2, recordFailure_opens hopens.1 hopens.2⟩
    · have hcounts : b.state = .closed →
          ¬ config.failureThreshold ≤ counting.next b.stats.consecutiveFailures := by
        intro hstate hreached
        exact hopens ⟨hstate, hreached⟩
      exact .inr (.inl ⟨hhalf, hcounts, recordFailure_counts hhalf hcounts⟩)

/-- A failure leaves the breaker closed or open. -/
theorem recordFailure_state_ne : (b.recordFailure counting config now).state ≠ .halfOpen := by
  rcases recordFailure_cases counting config now b with ⟨-, -, heq⟩ | ⟨hhalf, -, heq⟩ | ⟨-, heq⟩
  · simp [heq]
  · rw [heq]
    exact hhalf
  · simp [heq]

end CircuitBreaker

/-! ## Runs -/

namespace CircuitBreaker

/-- The calls of the breaker's methods, and time passing -/
inductive Op where
  | isAllowed
  | recordSuccess
  | recordFailure
  | setState (newState : CircuitState)
  | wait (duration : Nat)
  deriving DecidableEq

/-- The breaker and the time -/
structure Clocked where
  now : Nat
  breaker : CircuitBreaker

namespace Clocked

variable (counting : Counting) (config : CircuitBreakerConfig)

/-- What a call answers, where it answers, and what it leaves. -/
def step (s : Clocked) : Op → Bool × Clocked
  | .isAllowed =>
    let (allowed, breaker) := s.breaker.isAllowed config s.now
    (allowed, { s with breaker })
  | .recordSuccess => (false, { s with breaker := s.breaker.recordSuccess counting config })
  | .recordFailure => (false, { s with breaker := s.breaker.recordFailure counting config s.now })
  | .setState newState => (false, { s with breaker := s.breaker.setState s.now newState })
  | .wait duration => (false, { s with now := s.now + duration })

end Clocked

/-- A breaker made at some time, and whatever is done with it -/
def machine (counting : Counting) (config : CircuitBreakerConfig) : Trans.Machine Clocked Op :=
  .ofTotal (fun s => s.breaker = .new) fun s op => (s.step counting config op).2

/-! ## The invariant of the state and the statistics -/

structure Sound (config : CircuitBreakerConfig) (b : CircuitBreaker) : Prop where
  openedAt : b.state = .opened → ∃ time, b.stats.circuitOpenedAt = some time
  belowThreshold : b.state = .closed → b.stats.consecutiveFailures < config.failureThreshold
  quota : b.stats.halfOpenRequests ≤ config.halfOpenMaxRequests
  oneSided : ¬ (0 < b.stats.consecutiveFailures ∧ 0 < b.stats.consecutiveSuccesses)

variable {counting : Counting} {config : CircuitBreakerConfig} {now : Nat} {b : CircuitBreaker}

theorem Sound.new (h : 1 ≤ config.failureThreshold) : Sound config ⟨.closed, .new⟩ where
  openedAt := by simp
  belowThreshold := by
    intro _
    exact h
  quota := Nat.zero_le _
  oneSided := by simp [CircuitStats.new]

theorem Sound.isAllowed (hb : Sound config b) : Sound config (b.isAllowed config now).2 := by
  rcases isAllowed_cases config now b with ⟨-, heq⟩ | ⟨-, -, heq⟩ | ⟨-, -, heq⟩ |
    ⟨hstate, hslot, heq⟩ | ⟨-, -, heq⟩
  · rw [heq]
    exact hb
  · rw [heq]
    exact ⟨by simp, by simp, Nat.zero_le _, hb.oneSided⟩
  · rw [heq]
    exact hb
  · rw [heq]
    refine ⟨?_, ?_, hslot, hb.oneSided⟩
    · simp [hstate]
    · simp [hstate]
  · rw [heq]
    exact hb

theorem Sound.recordSuccess (hthreshold : 1 ≤ config.failureThreshold) (hb : Sound config b) :
    Sound config (b.recordSuccess counting config) := by
  rcases recordSuccess_cases counting config b with ⟨-, -, heq⟩ | ⟨-, heq⟩
  · rw [heq]
    exact Sound.new hthreshold
  · rw [heq]
    refine ⟨hb.openedAt, ?_, hb.quota, ?_⟩
    · intro _
      exact hthreshold
    · simp [CircuitStats.recordSuccess]

theorem Sound.recordFailure (hb : Sound config b) :
    Sound config (b.recordFailure counting config now) := by
  rcases recordFailure_cases counting config now b with ⟨-, -, heq⟩ | ⟨-, hcounts, heq⟩ |
    ⟨-, heq⟩
  · rw [heq]
    refine ⟨?_, by simp, hb.quota, ?_⟩
    · intro _
      exact ⟨now, rfl⟩
    · simp [CircuitStats.recordFailure]
  · rw [heq]
    refine ⟨hb.openedAt, ?_, hb.quota, ?_⟩
    · intro hstate
      exact Nat.lt_of_not_le (hcounts hstate)
    · simp [CircuitStats.recordFailure]
  · rw [heq]
    refine ⟨?_, by simp, Nat.zero_le _, ?_⟩
    · intro _
      exact ⟨now, rfl⟩
    · simp [CircuitStats.recordFailure]

theorem Sound.setState (hthreshold : 1 ≤ config.failureThreshold) (hb : Sound config b)
    (newState : CircuitState) : Sound config (b.setState now newState) := by
  cases newState with
  | closed => exact Sound.new hthreshold
  | opened =>
    refine ⟨?_, by simp [CircuitBreaker.setState], hb.quota, hb.oneSided⟩
    intro _
    exact ⟨now, rfl⟩
  | halfOpen =>
    exact ⟨by simp [CircuitBreaker.setState], by simp [CircuitBreaker.setState], Nat.zero_le _,
      hb.oneSided⟩

/-- **In every reachable state** the four clauses hold, whether the counters wrap or not. -/
theorem breaker_sound (hthreshold : 1 ≤ config.failureThreshold) {s : Clocked}
    (h : (machine counting config).Reachable s) : Sound config s.breaker := by
  apply h.invariant
  · intro s hinit
    rw [hinit]
    exact Sound.new hthreshold
  · rintro s op s' hb rfl
    cases op with
    | isAllowed => exact hb.isAllowed
    | recordSuccess => exact hb.recordSuccess hthreshold
    | recordFailure => exact hb.recordFailure
    | setState newState => exact hb.setState hthreshold newState
    | wait duration => exact hb

/-- A breaker that was opened by hand -/
theorem breaker_sound_opened : Sound .default
    ((Clocked.mk 0 .new).step .wrapping .default (.setState .opened)).2.breaker := by
  have hinit : (machine .wrapping .default).Reachable (Clocked.mk 0 .new) := .init rfl
  exact breaker_sound (by decide) (.step hinit rfl)

end CircuitBreaker

end MeiliBridge
