import Mathlib.Data.Multiset.AddSub
import Mathlib.Data.Multiset.Count
import MeiliBridge.Config
import MeiliBridge.Lib.Reservation
import MeiliBridge.Lib.Trans
import MeiliBridge.Models.Error

/-!
# The cache of prepared statements

`get_or_prepare` looks a query up under the read lock of the cache, and prepares and inserts under
the write lock what it has not found. Between the two other calls may find the same query missing,
evict entries or clear the cache. The counters have locks of their own, for which a call waits while
it holds the lock of the cache. `cache_invariant` is what holds after every step all the same.
-/

set_option autoImplicit false

namespace MeiliBridge

structure CacheConfig where
  maxSize : Nat
  enabled : Bool

/-- A connection's client, by the number of its connection -/
abbrev Client := Nat

/-- A prepared statement: where, and from which text -/
structure Statement where
  client : Client
  query : String
  deriving DecidableEq

/-- `Client::prepare`, with the answer of the server -/
def Client.prepare (client : Client) (query : String) : Except String Unit → Result Statement
  | .ok () => .ok ⟨client, query⟩
  | .error e => .error (.source s!"Failed to prepare statement: {e}")

structure CacheMetrics where
  hits : Nat
  misses : Nat
  evictions : Nat

structure StatementCache where
  cache : Dict Statement
  metrics : CacheMetrics

namespace StatementCache

def new : StatementCache := ⟨∅, ⟨0, 0, 0⟩⟩

/-- How far a call of `get_or_prepare` has come -/
inductive Phase where
  /-- The cache is disabled. -/
  | direct
  | lookup
  /-- Found, and the read lock is held until the hit is counted. -/
  | hit (stmt : Statement)
  | missed
  | preparing
  | prepared (stmt : Statement)
  /-- An entry is out, and the write lock is held until this is counted. -/
  | evicting (stmt : Statement)
  | returned (stmt : Statement)
  | failed (e : MeiliBridgeError)
  deriving DecidableEq

structure Call where
  client : Client
  query : String
  phase : Phase
  deriving DecidableEq

/-- What a call meets: the answer of the server to `prepare`, and the first key of the map. -/
structure Environment where
  answer : Except String Unit
  firstKey : String

namespace Phase

def ofPrepare (found : Statement → Phase) : Result Statement → Phase
  | .ok stmt => found stmt
  | .error e => .failed e

def isHit : Phase → Bool
  | .hit _ => true
  | _ => false

def isEvicting : Phase → Bool
  | .evicting _ => true
  | _ => false

/-- Neither a hit nor a miss is counted yet. -/
def uncounted : Phase → Bool
  | .lookup | .hit _ | .missed => true
  | _ => false

def ended : Phase → Bool
  | .returned _ | .failed _ => true
  | _ => false

/-- The statement that the call has found or prepared -/
def statement : Phase → Option Statement
  | .hit stmt | .prepared stmt | .evicting stmt | .returned stmt => some stmt
  | _ => none

end Phase

/-- No call holds the write lock. -/
def readable (calls : Multiset Call) : Prop := calls.countP (fun c => c.phase.isEvicting) = 0

/-- No call holds the lock. -/
def writable (calls : Multiset Call) : Prop :=
  readable calls ∧ calls.countP (fun c => c.phase.isHit) = 0

instance (calls : Multiset Call) : Decidable (readable calls) :=
  inferInstanceAs (Decidable (_ = _))

instance (calls : Multiset Call) : Decidable (writable calls) :=
  inferInstanceAs (Decidable (_ ∧ _))

def insertStatement (s : StatementCache) (query : String) (stmt : Statement) : StatementCache :=
  { s with cache := s.cache.insert query stmt }

/-- The next step of a call, while the others are where they are -/
def advance (config : CacheConfig) (others : Multiset Call) (env : Environment)
    (s : StatementCache) (c : Call) : Option (StatementCache × Phase) :=
  match c.phase with
  | .direct => some (s, .ofPrepare .returned (c.client.prepare c.query env.answer))
  | .lookup =>
    if readable others then
      match s.cache.lookup c.query with
      | some stmt => some (s, .hit stmt)
      | none => some (s, .missed)
    else none
  | .hit stmt =>
    some ({ s with metrics := { s.metrics with hits := s.metrics.hits + 1 } }, .returned stmt)
  | .missed =>
    some ({ s with metrics := { s.metrics with misses := s.metrics.misses + 1 } }, .preparing)
  | .preparing => some (s, .ofPrepare .prepared (c.client.prepare c.query env.answer))
  | .prepared stmt =>
    if writable others then
      if config.maxSize ≤ s.cache.keys.length ∧ s.cache.keys ≠ [] then
        if env.firstKey ∈ s.cache then
          some ({ s with cache := s.cache.erase env.firstKey }, .evicting stmt)
        else none
      else some (s.insertStatement c.query stmt, .returned stmt)
    else none
  | .evicting stmt =>
    some ({ s.insertStatement c.query stmt with
      metrics := { s.metrics with evictions := s.metrics.evictions + 1 } }, .returned stmt)
  | .returned _ | .failed _ => none

/-- The cache, and every call that was made -/
structure State where
  shared : StatementCache
  calls : Multiset Call

inductive Label where
  | getOrPrepare (client : Client) (query : String)
  | advance (c : Call) (env : Environment)
  | invalidate (query : String)
  | clear

def step (config : CacheConfig) (s : State) : Label → Option State
  | .getOrPrepare client query =>
    some { s with
      calls := ⟨client, query, if config.enabled then .lookup else .direct⟩ ::ₘ s.calls }
  | .advance c env =>
    (Reservation.takeOut c s.calls).bind fun others =>
      (advance config others env s.shared c).map fun r =>
        ⟨r.1, { c with phase := r.2 } ::ₘ others⟩
  | .invalidate query =>
    if writable s.calls then
      some { s with shared := { s.shared with cache := s.shared.cache.erase query } }
    else none
  | .clear =>
    if writable s.calls then some { s with shared := { s.shared with cache := ∅ } }
    else none

def machine (config : CacheConfig) : Trans.Machine State Label :=
  .ofFn ⟨.new, 0⟩ (step config)

/-- No call is in progress. -/
def State.Idle (s : State) : Prop := ∀ c ∈ s.calls, c.phase.ended = true

/-! ## What a step does -/

/-- The steps of a call for a client and a query, from one phase to the next -/
inductive Moved (config : CacheConfig) (others : Multiset Call) (client : Client) (query : String)
    (s : StatementCache) : Phase → StatementCache → Phase → Prop
  | direct : Moved config others client query s .direct s (.returned ⟨client, query⟩)
  | directFailed (e : MeiliBridgeError) : Moved config others client query s .direct s (.failed e)
  | found (stmt : Statement) (h : s.cache.lookup query = some stmt) :
    Moved config others client query s .lookup s (.hit stmt)
  | notFound (h : s.cache.lookup query = none) :
    Moved config others client query s .lookup s .missed
  | countHit (stmt : Statement) :
    Moved config others client query s (.hit stmt)
      { s with metrics := { s.metrics with hits := s.metrics.hits + 1 } } (.returned stmt)
  | countMiss :
    Moved config others client query s .missed
      { s with metrics := { s.metrics with misses := s.metrics.misses + 1 } } .preparing
  | prepared : Moved config others client query s .preparing s (.prepared ⟨client, query⟩)
  | prepareFailed (e : MeiliBridgeError) :
    Moved config others client query s .preparing s (.failed e)
  | evicts (stmt : Statement) (key : String) (hkey : key ∈ s.cache) :
    Moved config others client query s (.prepared stmt)
      { s with cache := s.cache.erase key } (.evicting stmt)
  | inserts (stmt : Statement) (hlock : writable others)
      (hroom : s.cache.keys.length < config.maxSize ∨ s.cache.keys = []) :
    Moved config others client query s (.prepared stmt) (s.insertStatement query stmt)
      (.returned stmt)
  | evicted (stmt : Statement) :
    Moved config others client query s (.evicting stmt)
      { s.insertStatement query stmt with
        metrics := { s.metrics with evictions := s.metrics.evictions + 1 } } (.returned stmt)

variable {config : CacheConfig} {others : Multiset Call} {env : Environment} {c : Call}

theorem prepare_eq (client : Client) (query : String) (answer : Except String Unit) :
    client.prepare query answer = .ok ⟨client, query⟩ ∨
      ∃ e, client.prepare query answer = .error e := by
  cases answer with
  | ok u => exact .inl rfl
  | error e => exact .inr ⟨_, rfl⟩

theorem advance_moved {s s' : StatementCache} {p : Phase}
    (h : advance config others env s c = some (s', p)) :
    Moved config others c.client c.query s c.phase s' p := by
  rw [advance] at h
  generalize c.phase = phase at h ⊢
  cases phase with
  | direct =>
    obtain ⟨rfl, rfl⟩ := Prod.mk.inj (Option.some.inj h)
    rcases prepare_eq c.client c.query env.answer with heq | ⟨e, heq⟩
    · rw [heq]
      exact .direct
    · rw [heq]
      exact .directFailed e
  | lookup =>
    dsimp only at h
    split at h
    · cases hlookup : s.cache.lookup c.query with
      | none =>
        rw [hlookup] at h
        obtain ⟨rfl, rfl⟩ := Prod.mk.inj (Option.some.inj h)
        exact .notFound hlookup
      | some stmt =>
        rw [hlookup] at h
        obtain ⟨rfl, rfl⟩ := Prod.mk.inj (Option.some.inj h)
        exact .found stmt hlookup
    · cases h
  | hit stmt =>
    obtain ⟨rfl, rfl⟩ := Prod.mk.inj (Option.some.inj h)
    exact .countHit stmt
  | missed =>
    obtain ⟨rfl, rfl⟩ := Prod.mk.inj (Option.some.inj h)
    exact .countMiss
  | preparing =>
    obtain ⟨rfl, rfl⟩ := Prod.mk.inj (Option.some.inj h)
    rcases prepare_eq c.client c.query env.answer with heq | ⟨e, heq⟩
    · rw [heq]
      exact .prepared
    · rw [heq]
      exact .prepareFailed e
  | prepared stmt =>
    dsimp only at h
    split at h
    · next hlock =>
      split at h
      · split at h
        · next hkey =>
          obtain ⟨rfl, rfl⟩ := Prod.mk.inj (Option.some.inj h)
          exact .evicts stmt _ hkey
        · cases h
      · next hroom =>
        obtain ⟨rfl, rfl⟩ := Prod.mk.inj (Option.some.inj h)
        -- with nothing to evict the statement goes in all the same
        refine .inserts stmt hlock ?_
        by_cases hempty : s.cache.keys = []
        · exact .inr hempty
        · exact .inl (Nat.lt_of_not_le fun hle => hroom ⟨hle, hempty⟩)
    · cases h
  | evicting stmt =>
    obtain ⟨rfl, rfl⟩ := Prod.mk.inj (Option.some.inj h)
    exact .evicted stmt
  | returned stmt => cases h
  | failed e => cases h

/-- A new call, the next step of a call, or fewer entries -/
theorem step_cases {s s' : State} {l : Label} (h : step config s l = some s') :
    (∃ client query, l = .getOrPrepare client query ∧ s' = { s with
      calls := ⟨client, query, if config.enabled then .lookup else .direct⟩ ::ₘ s.calls }) ∨
    (∃ c env others shared p, l = .advance c env ∧ s.calls = c ::ₘ others ∧
      Moved config others c.client c.query s.shared c.phase shared p ∧
      s' = ⟨shared, { c with phase := p } ::ₘ others⟩) ∨
    (∃ query, l = .invalidate query ∧ s' = { s with
      shared := { s.shared with cache := s.shared.cache.erase query } }) ∨
    l = .clear ∧ s' = { s with shared := { s.shared with cache := ∅ } } := by
  cases l with
  | getOrPrepare client query => exact .inl ⟨client, query, rfl, (Option.some.inj h).symm⟩
  | advance c env =>
    obtain ⟨others, htake, hmap⟩ := Option.bind_eq_some_iff.mp h
    obtain ⟨r, hadvance, rfl⟩ := Option.map_eq_some_iff.mp hmap
    exact .inr (.inl ⟨c, env, others, r.1, r.2, rfl, Reservation.takeOut_eq_some.mp htake,
      advance_moved hadvance, rfl⟩)
  | invalidate query =>
    rw [step] at h
    split at h
    · exact .inr (.inr (.inl ⟨query, rfl, (Option.some.inj h).symm⟩))
    · cases h
  | clear =>
    rw [step] at h
    split at h
    · exact .inr (.inr (.inr ⟨rfl, (Option.some.inj h).symm⟩))
    · cases h

/-! ## The entries -/

/-- Statements are kept under their texts, and a call holds one for its own query. -/
structure Keyed (s : State) : Prop where
  entry : ∀ query stmt, s.shared.cache.lookup query = some stmt → stmt.query = query
  held : ∀ c ∈ s.calls, ∀ stmt, c.phase.statement = some stmt → stmt.query = c.query

/-- A call's step inserts at most the statement that the call holds, and a call gets its statement
from the entry of its query or prepares it. -/
theorem Moved.entries {client : Client} {query : String} {s s' : StatementCache} {p p' : Phase}
    (h : Moved config others client query s p s' p') :
    (∀ key stmt, s'.cache.lookup key = some stmt →
      key = query ∧ p.statement = some stmt ∨ s.cache.lookup key = some stmt) ∧
    ∀ stmt, p'.statement = some stmt → p.statement = some stmt ∨ stmt = ⟨client, query⟩ ∨
      (p = .lookup ∧ s.cache.lookup query = some stmt) := by
  cases h with
  | direct | prepared =>
    exact ⟨fun key stmt h => .inr h, fun stmt h => .inr (.inl (Option.some.inj h).symm)⟩
  | directFailed e | prepareFailed e | notFound hlookup | countMiss =>
    exact ⟨fun key stmt h => .inr h, fun stmt h => by cases h⟩
  | found stmt hlookup =>
    refine ⟨fun key stmt h => .inr h, fun stmt' h => .inr (.inr ⟨rfl, ?_⟩)⟩
    rw [hlookup]
    exact h
  | countHit stmt => exact ⟨fun key stmt h => .inr h, fun stmt h => .inl h⟩
  | evicts stmt key hkey =>
    exact ⟨fun key stmt h => .inr (Dict.lookup_of_erase h), fun stmt h => .inl h⟩
  | inserts stmt hlock hroom | evicted stmt =>
    refine ⟨fun key stmt' h => ?_, fun stmt h => .inl h⟩
    rcases Dict.lookup_of_insert h with ⟨hkey, rfl⟩ | hold
    · exact .inl ⟨hkey, rfl⟩
    · exact .inr hold

theorem keyed_reachable {s : State} (h : (machine config).Reachable s) : Keyed s := by
  apply h.invariant
  · intro s hs
    rw [hs]
    refine ⟨fun query stmt hlookup => ?_, fun c hc => ?_⟩
    · cases hlookup
    · exact absurd hc (Multiset.notMem_zero c)
  · intro s l s' hs hstep
    rcases step_cases hstep with ⟨client, query, -, rfl⟩ | ⟨c, env, others, shared, p, -, hcalls,
      hmoved, rfl⟩ | ⟨query, -, rfl⟩ | ⟨-, rfl⟩
    · refine ⟨hs.entry, fun c hc stmt hstmt => ?_⟩
      rcases Multiset.mem_cons.mp hc with rfl | hc
      · split at hstmt <;> cases hstmt
      · exact hs.held c hc stmt hstmt
    · have hheld := hs.held c (hcalls ▸ Multiset.mem_cons_self c others)
      refine ⟨fun key stmt hkey => ?_, fun d hd stmt hstmt => ?_⟩
      · rcases hmoved.entries.1 key stmt hkey with ⟨rfl, hstmt⟩ | hold
        · exact hheld stmt hstmt
        · exact hs.entry key stmt hold
      · rcases Multiset.mem_cons.mp hd with rfl | hd
        · rcases hmoved.entries.2 stmt hstmt with hold | rfl | ⟨-, hfound⟩
          · exact hheld stmt hold
          · rfl
          · exact hs.entry _ stmt hfound
        · exact hs.held d (hcalls ▸ Multiset.mem_cons_of_mem hd) stmt hstmt
    · exact ⟨fun key stmt hkey => hs.entry key stmt (Dict.lookup_of_erase hkey), hs.held⟩
    · refine ⟨fun key stmt hkey => ?_, hs.held⟩
      cases hkey

/-! ## The number of entries -/

/-- A call that has evicted an entry and not inserted its own yet has the place of that entry. -/
def Roomy (config : CacheConfig) (s : State) : Prop :=
  s.shared.cache.keys.length + s.calls.countP (fun c => c.phase.isEvicting) ≤ config.maxSize

theorem keys_length_insert_le (cache : Dict Statement) (query : String) (stmt : Statement) :
    (cache.insert query stmt).keys.length ≤ cache.keys.length + 1 := by
  rw [AList.keys_insert, List.length_cons]
  exact Nat.succ_le_succ List.length_erase_le

theorem keys_length_erase_le (cache : Dict Statement) (query : String) :
    (cache.erase query).keys.length ≤ cache.keys.length := by
  rw [AList.keys_erase]
  exact List.length_erase_le

theorem keys_length_erase_of_mem {cache : Dict Statement} {key : String} (h : key ∈ cache) :
    (cache.erase key).keys.length + 1 = cache.keys.length := by
  rw [AList.keys_erase]
  exact List.length_erase_add_one (AList.mem_keys.mp h)

/-- A step takes places only when no other call has one. -/
theorem Moved.room {client : Client} {query : String} {s s' : StatementCache} {p p' : Phase}
    (h : Moved config others client query s p s' p') (hmax : 1 ≤ config.maxSize) :
    s'.cache.keys.length + p'.isEvicting.toNat ≤ s.cache.keys.length + p.isEvicting.toNat ∨
      (readable others ∧ s'.cache.keys.length + p'.isEvicting.toNat ≤ config.maxSize) := by
  cases h with
  | direct | directFailed e | found stmt hlookup | notFound hlookup | countHit stmt | countMiss
    | prepared | prepareFailed e => exact .inl (Nat.le_refl _)
  | evicts stmt key hkey => exact .inl (Nat.le_of_eq (keys_length_erase_of_mem hkey))
  | inserts stmt hlock hroom =>
    refine .inr ⟨hlock.1, (keys_length_insert_le s.cache query stmt).trans ?_⟩
    rcases hroom with hroom | hempty
    · exact hroom
    · rw [hempty]
      exact hmax
  | evicted stmt => exact .inl (keys_length_insert_le s.cache query stmt)

theorem countP_cons_toNat (q : Call → Bool) (c : Call) (calls : Multiset Call) :
    (c ::ₘ calls).countP (fun c => q c) = calls.countP (fun c => q c) + (q c).toNat := by
  rw [Multiset.countP_cons]
  cases q c <;> rfl

theorem roomy_reachable (hmax : 1 ≤ config.maxSize) {s : State}
    (h : (machine config).Reachable s) : Roomy config s := by
  apply h.invariant
  · intro s hs
    rw [hs]
    exact Nat.zero_le _
  · intro s l s' hs hstep
    rw [Roomy] at hs ⊢
    rcases step_cases hstep with ⟨client, query, -, rfl⟩ | ⟨c, env, others, shared, p, -, hcalls,
      hmoved, rfl⟩ | ⟨query, -, rfl⟩ | ⟨-, rfl⟩
    · rw [countP_cons_toNat]
      split <;> exact hs
    · rw [hcalls, countP_cons_toNat] at hs
      rw [countP_cons_toNat]
      dsimp only
      rcases hmoved.room hmax with hle | ⟨hlock, hle⟩
      · omega
      · rw [readable] at hlock
        omega
    · exact (Nat.add_le_add_right (keys_length_erase_le _ query) _).trans hs
    · exact (Nat.add_le_add_right (Nat.zero_le _) _).trans hs

/-! ## The counters -/

/-- Every call is counted once, as a hit or as a miss. -/
def Counted (s : State) : Prop :=
  s.shared.metrics.hits + s.shared.metrics.misses +
    s.calls.countP (fun c => c.phase.uncounted) = s.calls.card

theorem Moved.counted {client : Client} {query : String} {s s' : StatementCache} {p p' : Phase}
    (h : Moved config others client query s p s' p') :
    s'.metrics.hits + s'.metrics.misses + p'.uncounted.toNat =
      s.metrics.hits + s.metrics.misses + p.uncounted.toNat := by
  cases h with
  | countHit stmt => exact Nat.add_right_comm _ 1 _
  | direct | directFailed e | found stmt hlookup | notFound hmissing | countMiss | prepared
    | prepareFailed e | evicts stmt key hkey | inserts stmt hlock hroom | evicted stmt => rfl

theorem counted_reachable (henabled : config.enabled = true) {s : State}
    (h : (machine config).Reachable s) : Counted s := by
  apply h.invariant
  · intro s hs
    rw [hs]
    rfl
  · intro s l s' hs hstep
    rw [Counted] at hs ⊢
    rcases step_cases hstep with ⟨client, query, -, rfl⟩ | ⟨c, env, others, shared, p, -, hcalls,
      hmoved, rfl⟩ | ⟨query, -, rfl⟩ | ⟨-, rfl⟩
    · rw [countP_cons_toNat, if_pos henabled, Multiset.card_cons, ← hs]
      rfl
    · have hcount := hmoved.counted
      rw [hcalls, countP_cons_toNat, Multiset.card_cons] at hs
      rw [countP_cons_toNat, Multiset.card_cons]
      dsimp only
      omega
    · exact hs
    · exact hs

theorem countP_uncounted_of_idle {s : State} (h : s.Idle) :
    s.calls.countP (fun c => c.phase.uncounted) = 0 := by
  apply Multiset.countP_eq_zero.mpr
  intro c hc huncounted
  have hended := h c hc
  revert hended huncounted
  cases c.phase <;> simp [Phase.ended, Phase.uncounted]

/-- After every step the entries are within the bound and kept under their texts; and with no call
in progress every call has been counted. -/
theorem cache_invariant (hmax : 1 ≤ config.maxSize) (henabled : config.enabled = true) {s : State}
    (h : (machine config).Reachable s) :
    s.shared.cache.keys.length ≤ config.maxSize ∧
    (∀ query stmt, s.shared.cache.lookup query = some stmt → stmt.query = query) ∧
    (s.Idle → s.shared.metrics.hits + s.shared.metrics.misses = s.calls.card) := by
  refine ⟨(Nat.le_add_right _ _).trans (roomy_reachable hmax h), (keyed_reachable h).entry, ?_⟩
  intro hidle
  have hcounted := counted_reachable henabled h
  rwa [Counted, countP_uncounted_of_idle hidle, Nat.add_zero] at hcounted

/-- The steps of one call, from the phases it is in before each -/
def steps (client : Client) (query : String) (env : Environment) (phases : List Phase) :
    List Label :=
  phases.map fun p => .advance ⟨client, query, p⟩ env

/-- Two calls miss; the second one evicts what the first one has inserted. -/
def twoMisses : List Label :=
  let env : Environment := ⟨.ok (), "SELECT 1"⟩
  [.getOrPrepare 0 "SELECT 1", .getOrPrepare 1 "SELECT 2"] ++
    steps 1 "SELECT 2" env [.lookup, .missed] ++
    steps 0 "SELECT 1" env [.lookup, .missed, .preparing, .prepared ⟨0, "SELECT 1"⟩] ++
    steps 1 "SELECT 2" env [.preparing, .prepared ⟨1, "SELECT 2"⟩, .evicting ⟨1, "SELECT 2"⟩]

def twoMissed : State where
  shared := ⟨AList.singleton "SELECT 2" ⟨1, "SELECT 2"⟩, ⟨0, 2, 1⟩⟩
  calls := {⟨1, "SELECT 2", .returned ⟨1, "SELECT 2"⟩⟩, ⟨0, "SELECT 1", .returned ⟨0, "SELECT 1"⟩⟩}

theorem twoMissed_reachable : (machine ⟨1, true⟩).Reachable twoMissed :=
  @Trans.Machine.reachable_of_runFn _ _ _ _ twoMisses _ _ (.init rfl) rfl

theorem cache_invariant_twoMissed :
    twoMissed.shared.cache.keys.length ≤ 1 ∧
    (∀ query stmt, twoMissed.shared.cache.lookup query = some stmt → stmt.query = query) ∧
    (twoMissed.Idle → twoMissed.shared.metrics.hits + twoMissed.shared.metrics.misses =
      twoMissed.calls.card) :=
  @cache_invariant ⟨1, true⟩ (Nat.le_refl 1) rfl _ twoMissed_reachable

end StatementCache

end MeiliBridge
