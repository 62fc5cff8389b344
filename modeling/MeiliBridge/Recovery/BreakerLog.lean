import MeiliBridge.Lib.History
import MeiliBridge.Recovery.CircuitBreaker

/-!
# What was called and answered

The breaker with a record of all calls. An episode is what has happened since the breaker went to
`HalfOpen`, while it stays there.
-/

set_option autoImplicit false

namespace MeiliBridge

namespace CircuitBreaker

/-- A call: whether it was answered that the request is allowed, when it was made, and the state
before and after it -/
structure Entry where
  op : Op
  allowed : Bool
  time : Nat
  before : CircuitState
  after : CircuitState
  deriving DecidableEq

/-- The breaker and all calls, the last one first -/
structure Logged where
  clocked : Clocked
  log : List Entry

namespace Logged

variable (counting : Counting) (config : CircuitBreakerConfig)

/-- The record of a call -/
def entry (s : Logged) (op : Op) : Entry where
  op := op
  allowed := (s.clocked.step counting config op).1
  time := s.clocked.now
  before := s.clocked.breaker.state
  after := (s.clocked.step counting config op).2.breaker.state

def step (s : Logged) (op : Op) : Logged where
  clocked := (s.clocked.step counting config op).2
  log := s.entry counting config op :: s.log

/-- A breaker just made -/
def start (now : Nat) : Logged := ⟨⟨now, .new⟩, []⟩

/-- A new breaker after these calls -/
def after (ops : List Op) : Logged := ops.foldl (step counting config) (start 0)

end Logged

def loggedMachine (counting : Counting) (config : CircuitBreakerConfig) :
    Trans.Machine Logged Op :=
  .ofTotal (fun s => ∃ now, s = .start now) (Logged.step counting config)

/-! ## Episodes -/

/-- The calls of the episode that goes on, with the one that began it -/
def episode (log : List Entry) : List Entry := log.takeWhile (·.after = .halfOpen)

theorem episode_cons (e : Entry) (log : List Entry) :
    episode (e :: log) = if e.after = .halfOpen then e :: episode log else [] := by
  by_cases h : e.after = .halfOpen
  · simp [episode, h]
  · simp [episode, h]

namespace Logged

abbrev breaker (s : Logged) : CircuitBreaker := s.clocked.breaker

/-- How many calls of the episode are of a kind -/
def inEpisode (p : Entry → Bool) (s : Logged) : Nat := (episode s.log).countP p

/-- The requests let through in the episode -/
def allowedRequests (s : Logged) : Nat := s.inEpisode (·.allowed)

/-- The successes recorded in the episode -/
def freshSuccesses (s : Logged) : Nat := s.inEpisode (·.op = .recordSuccess)

end Logged

/-- A step that is no `set_state` -/
def Automatic (op : Op) : Prop := ∀ newState, op ≠ .setState newState

variable {counting : Counting} {config : CircuitBreakerConfig} {s : Logged} {op : Op}

theorem episode_step : episode (s.step counting config op).log =
    if (s.step counting config op).breaker.state = .halfOpen
    then s.entry counting config op :: episode s.log else [] :=
  episode_cons _ _

theorem inEpisode_step {p : Entry → Bool}
    (h : (s.step counting config op).breaker.state = .halfOpen) :
    (s.step counting config op).inEpisode p =
      s.inEpisode p + if p (s.entry counting config op) then 1 else 0 := by
  rw [Logged.inEpisode, episode_step, if_pos h, List.countP_cons]
  rfl

/-- Outside `HalfOpen` there is no episode. -/
theorem episode_step_nil (h : (s.step counting config op).breaker.state ≠ .halfOpen) :
    episode (s.step counting config op).log = [] := by
  rw [episode_step, if_neg h]

theorem reachable_after {ok : Logged → Op → Prop} {ops : List Op}
    (h : Trans.Machine.Along (Logged.step counting config) ok (.start 0) ops) :
    ((loggedMachine counting config).restrict ok).Reachable (.after counting config ops) := by
  apply Trans.Machine.Reachable.foldl
  · exact .init ⟨0, rfl⟩
  · exact h

end CircuitBreaker

end MeiliBridge
