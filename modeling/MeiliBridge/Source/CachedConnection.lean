import MeiliBridge.Source.StatementCache

/-!
# Connections that share a statement cache

All the connections that `get_cached_connection` opens for one connector use its one cache, and the
cache knows a statement by its text only. A lookup finds what whichever connection has prepared, and
the statement is then executed on the connection that asked: the two are the same in every run in
which no lookup finds a statement of another connection, and in no other (`owned_iff`).
-/

set_option autoImplicit false

namespace MeiliBridge

open StatementCache

/-- A connector: its open connections, the cache with the calls made on them, and the calls whose
statement the connection has executed -/
structure CachedConnector where
  connections : Nat
  cached : StatementCache.State
  executed : Multiset Call

namespace CachedConnector

inductive Label where
  | getCachedConnection (connected : Bool)
  /-- A query begins with `getOrPrepare`, with the client of its connection. -/
  | cache (l : StatementCache.Label)
  /-- The query goes on with the statement that it got. -/
  | execute (c : Call)

/-- There is a connection to make the call on. -/
def HasClient (connections : Nat) : StatementCache.Label → Prop
  | .getOrPrepare client _ => client < connections
  | _ => True

instance (connections : Nat) (l : StatementCache.Label) : Decidable (HasClient connections l) :=
  match l with
  | .getOrPrepare client _ => inferInstanceAs (Decidable (client < connections))
  | .advance _ _ => isTrue trivial
  | .invalidate _ => isTrue trivial
  | .clear => isTrue trivial

def step (config : CacheConfig) (s : CachedConnector) : Label → Option CachedConnector
  | .getCachedConnection connected =>
    some (if connected then { s with connections := s.connections + 1 } else s)
  | .cache l =>
    if HasClient s.connections l then
      (StatementCache.step config s.cached l).map fun cached => { s with cached := cached }
    else none
  | .execute c =>
    if c ∈ s.cached.calls - s.executed ∧ c.phase.ended = true then
      some { s with executed := c ::ₘ s.executed }
    else none

def machine (config : CacheConfig) : Trans.Machine CachedConnector Label :=
  .ofFn ⟨0, ⟨.new, 0⟩, 0⟩ (step config)

/-- The statement of the call was prepared on the client that was passed to it. -/
def OwnStatement (c : Call) : Prop := ∀ stmt, c.phase.statement = some stmt → stmt.client = c.client

def Owned (s : CachedConnector) : Prop :=
  (∀ c ∈ s.cached.calls, OwnStatement c) ∧ ∀ c ∈ s.executed, OwnStatement c

/-- A lookup that finds a statement finds one of its own connection. -/
def HitsOwn (s : CachedConnector) : Label → Prop
  | .cache (.advance c _) => c.phase = .lookup →
    ∀ stmt, s.cached.shared.cache.lookup c.query = some stmt → stmt.client = c.client
  | _ => True

variable {config : CacheConfig} {s s' : CachedConnector}

theorem cache_eq_some {l : StatementCache.Label} (h : step config s (.cache l) = some s') :
    ∃ cached, StatementCache.step config s.cached l = some cached ∧
      s' = { s with cached := cached } := by
  rw [step] at h
  split at h
  · obtain ⟨cached, hcached, rfl⟩ := Option.map_eq_some_iff.mp h
    exact ⟨cached, hcached, rfl⟩
  · cases h

theorem execute_eq_some {c : Call} (h : step config s (.execute c) = some s') :
    c ∈ s.cached.calls ∧ s' = { s with executed := c ::ₘ s.executed } := by
  rw [step] at h
  split at h
  · next hready =>
    exact ⟨Multiset.mem_of_le (Multiset.sub_le_self _ _) hready.1, (Option.some.inj h).symm⟩
  · cases h

/-- After a step of a call its statement is its own again just if the lookup has found an own
one. -/
theorem ownStatement_iff {others : Multiset Call} {c : Call} {shared shared' : StatementCache}
    {p : Phase} (h : Moved config others c.client c.query shared c.phase shared' p)
    (hown : OwnStatement c) : OwnStatement { c with phase := p } ↔
      (c.phase = .lookup → ∀ stmt, shared.cache.lookup c.query = some stmt →
        stmt.client = c.client) := by
  constructor
  · intro hnext hphase stmt hstmt
    rw [hphase] at h
    cases h with
    | found stmt' hlookup =>
      obtain rfl := Option.some.inj (hlookup.symm.trans hstmt)
      exact hnext stmt' rfl
    | notFound hlookup =>
      rw [hlookup] at hstmt
      cases hstmt
  · intro hhit stmt hstmt
    rcases h.entries.2 stmt hstmt with hold | rfl | ⟨hphase, hfound⟩
    · exact hown stmt hold
    · rfl
    · exact hhit hphase stmt hfound

theorem owned_step {l : Label} (hs : Owned s) (hstep : step config s l = some s') :
    Owned s' ↔ HitsOwn s l := by
  cases l with
  | getCachedConnection connected =>
    obtain rfl := Option.some.inj hstep
    refine iff_of_true ?_ trivial
    cases connected <;> exact hs
  | execute c =>
    obtain ⟨hc, rfl⟩ := execute_eq_some hstep
    refine iff_of_true ⟨hs.1, fun d hd => ?_⟩ trivial
    rcases Multiset.mem_cons.mp hd with rfl | hd
    · exact hs.1 d hc
    · exact hs.2 d hd
  | cache l =>
    obtain ⟨cached, hcached, rfl⟩ := cache_eq_some hstep
    rcases step_cases hcached with ⟨client, query, rfl, rfl⟩ | ⟨c, env, others, shared, p, rfl,
      hcalls, hmoved, rfl⟩ | ⟨query, rfl, rfl⟩ | ⟨rfl, rfl⟩
    · refine iff_of_true ⟨fun d hd => ?_, hs.2⟩ trivial
      rcases Multiset.mem_cons.mp hd with rfl | hd
      · intro stmt hstmt
        split at hstmt <;> cases hstmt
      · exact hs.1 d hd
    -- the call that moved is the only one whose statement can be new
    · have hc := hs.1 c (hcalls ▸ Multiset.mem_cons_self c others)
      refine Iff.trans ?_ (ownStatement_iff hmoved hc)
      constructor
      · intro hs'
        exact hs'.1 _ (Multiset.mem_cons_self _ others)
      · intro hown
        refine ⟨fun d hd => ?_, hs.2⟩
        rcases Multiset.mem_cons.mp hd with rfl | hd
        · exact hown
        · exact hs.1 d (hcalls ▸ Multiset.mem_cons_of_mem hd)
    · exact iff_of_true hs trivial
    · exact iff_of_true hs trivial

/-- Statements stay with their connections in exactly the runs in which every hit is an own one. -/
theorem owned_iff (h : ((machine config).restrict HitsOwn).Reachable s) :
    Owned s ∧ ∀ l s', (machine config).step s l s' → (Owned s' ↔ HitsOwn s l) := by
  have howned : Owned s := by
    apply h.invariant
    · intro s hs
      rw [hs]
      exact ⟨fun c hc => absurd hc (Multiset.notMem_zero c),
        fun c hc => absurd hc (Multiset.notMem_zero c)⟩
    · intro s l s' hs hstep
      exact (owned_step hs hstep.2).mpr hstep.1
  exact ⟨howned, fun l s' hstep => owned_step howned hstep⟩

instance (s : CachedConnector) : (l : Label) → Decidable (HitsOwn s l)
  | .cache (.advance c _) => inferInstanceAs (Decidable (c.phase = .lookup → ∀ stmt,
      s.cached.shared.cache.lookup c.query = some stmt → stmt.client = c.client))
  | .cache (.getOrPrepare _ _) => isTrue trivial
  | .cache (.invalidate _) => isTrue trivial
  | .cache .clear => isTrue trivial
  | .getCachedConnection _ => isTrue trivial
  | .execute _ => isTrue trivial

/-- A query of one connection that waits for nothing, up to the execution of its statement -/
def queryLabels (client : Client) (query : String) (phases : List Phase) (stmt : Statement) :
    List Label :=
  .cache (.getOrPrepare client query) ::
    (steps client query ⟨.ok (), ""⟩ phases).map .cache ++
    [.execute ⟨client, query, .returned stmt⟩]

/-- Of two connections, one prepares a query and then asks for it again. -/
def askedAgain : List Label :=
  [.getCachedConnection true, .getCachedConnection true] ++
    queryLabels 0 "SELECT 1" [.lookup, .missed, .preparing, .prepared ⟨0, "SELECT 1"⟩]
      ⟨0, "SELECT 1"⟩ ++
    queryLabels 0 "SELECT 1" [.lookup, .hit ⟨0, "SELECT 1"⟩] ⟨0, "SELECT 1"⟩

def ownStatement : CachedConnector where
  connections := 2
  cached :=
    ⟨⟨AList.singleton "SELECT 1" ⟨0, "SELECT 1"⟩, ⟨1, 1, 0⟩⟩,
      {⟨0, "SELECT 1", .returned ⟨0, "SELECT 1"⟩⟩, ⟨0, "SELECT 1", .returned ⟨0, "SELECT 1"⟩⟩}⟩
  executed :=
    {⟨0, "SELECT 1", .returned ⟨0, "SELECT 1"⟩⟩, ⟨0, "SELECT 1", .returned ⟨0, "SELECT 1"⟩⟩}

/-- The other connection has asked for nothing yet. -/
theorem owned_iff_askedAgain : Owned ownStatement ∧
    ∀ l s', (machine ⟨100, true⟩).step ownStatement l s' → (Owned s' ↔ HitsOwn ownStatement l) :=
  owned_iff (@Trans.Machine.reachable_of_checked _ _ _ _ _ HitsOwn _ askedAgain rfl)

/-- One connection prepares a query, the other asks for the same one. -/
def sameQuery : List Label :=
  [.getCachedConnection true, .getCachedConnection true] ++
    queryLabels 0 "SELECT 1" [.lookup, .missed, .preparing, .prepared ⟨0, "SELECT 1"⟩]
      ⟨0, "SELECT 1"⟩ ++
    queryLabels 1 "SELECT 1" [.lookup, .hit ⟨0, "SELECT 1"⟩] ⟨0, "SELECT 1"⟩

def foreignStatement : CachedConnector where
  connections := 2
  cached :=
    ⟨⟨AList.singleton "SELECT 1" ⟨0, "SELECT 1"⟩, ⟨1, 1, 0⟩⟩,
      {⟨1, "SELECT 1", .returned ⟨0, "SELECT 1"⟩⟩, ⟨0, "SELECT 1", .returned ⟨0, "SELECT 1"⟩⟩}⟩
  executed :=
    {⟨1, "SELECT 1", .returned ⟨0, "SELECT 1"⟩⟩, ⟨0, "SELECT 1", .returned ⟨0, "SELECT 1"⟩⟩}

/-- With the default configuration the second connection executes a statement of the first. -/
theorem foreign_statement_executed :
    ¬ ∀ config s, (machine config).Reachable s → Owned s := by
  intro hall
  have hreach : (machine ⟨100, true⟩).Reachable foreignStatement :=
    @Trans.Machine.reachable_of_runFn _ _ _ _ sameQuery _ _ (.init rfl) rfl
  have hexecuted : (⟨1, "SELECT 1", .returned ⟨0, "SELECT 1"⟩⟩ : Call) ∈
      foreignStatement.executed := by
    simp [foreignStatement]
  have hown := (hall _ _ hreach).2 _ hexecuted _ rfl
  cases hown

end CachedConnector

end MeiliBridge
