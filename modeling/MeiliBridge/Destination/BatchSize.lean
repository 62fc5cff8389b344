import MeiliBridge.Config.Validation
import MeiliBridge.Destination.ImportData
import MeiliBridge.Lib.Trans
import MeiliBridge.Pipeline.AdaptiveBatching

/-!
# The size of import batches

`import_data` takes its batch size from the Meilisearch section of the configuration or, with
adaptive batching, from the manager, which starts from the sizes of the performance section. Neither
validator looks at any of these sizes. `sizes_valid_iff` says which of them keep every import from
panicking and every batch within its bounds.
-/

set_option autoImplicit false

namespace MeiliBridge

structure BatchProcessingConfig where
  defaultBatchSize : Nat
  maxBatchSize : Nat
  minBatchSize : Nat
  adaptiveBatching : Bool
  adaptiveConfig : AdaptiveBatchingConfig

/-- A configuration with the sizes that imports read of it -/
structure ImportConfig extends Config where
  meilisearchBatchSize : Nat
  batchProcessing : BatchProcessingConfig

/-- A call of `import_data`, and what it meets: how long after the call before, the memory, and how
long the server takes for each chunk that it accepts -/
structure ImportCall where
  indexName : String
  documents : List Value
  elapsed : Nat
  memory : SystemMemory
  times : Nat → Option Nat

structure ImportState where
  now : Nat
  states : Dict TableBatchState

namespace ImportConfig

open AdaptiveBatchingManager Interaction

variable (c : ImportConfig)

/-- The batch size of a call, and the states of the manager after it -/
def batchSize (now : Nat) (states : Dict TableBatchState) (call : ImportCall) :
    Nat × Dict TableBatchState :=
  let sizes := c.batchProcessing
  if sizes.adaptiveBatching then
    getBatchSize sizes.adaptiveConfig states now call.memory call.indexName sizes.defaultBatchSize
      sizes.minBatchSize sizes.maxBatchSize
  else (c.meilisearchBatchSize, states)

/-- The accepted chunks are recorded, from the i-th on. -/
def recordChunks (now : Nat) (call : ImportCall) :
    Nat → List (List Value) → Dict TableBatchState → Dict TableBatchState
  | _, [], states => states
  | i, chunk :: rest, states =>
    recordChunks now call (i + 1) rest
      (match call.times i with
        | some time =>
          if c.batchProcessing.adaptiveBatching then
            recordMetrics c.batchProcessing.adaptiveConfig states now call.indexName
              ⟨chunk.length, time⟩
          else states
        | none => states)

def chunkSize (s : ImportState) (call : ImportCall) : Nat :=
  (c.batchSize (s.now + call.elapsed) s.states call).1

/-- A call; none if `chunks` panics -/
def importData (s : ImportState) (call : ImportCall) : Option ImportState :=
  let now := s.now + call.elapsed
  let (size, states) := c.batchSize now s.states call
  if size = 0 then none
  else some ⟨now, c.recordChunks now call 0 (call.documents.chunks size) states⟩

def imports : Trans.Machine ImportState ImportCall := .ofFn ⟨0, ∅⟩ c.importData

/-- No call panics, and an adaptive size is within its bounds. -/
def SizesValid : Prop :=
  ∀ s, c.imports.Reachable s → ∀ call,
    1 ≤ c.chunkSize s call ∧ (c.batchProcessing.adaptiveBatching = true →
      c.batchProcessing.minBatchSize ≤ c.chunkSize s call ∧
        c.chunkSize s call ≤ c.batchProcessing.maxBatchSize)

/-- The manager adjusts a size before it is used for the first time. -/
def AdjustsAtOnce (config : AdaptiveBatchingConfig) : Prop :=
  config.adjustmentIntervalMs = 0 ∧ config.metricWindowSize / 2 = 0

def SizesFit : Prop :=
  let sizes := c.batchProcessing
  if sizes.adaptiveBatching = true then
    if sizes.adaptiveConfig.perTableOptimization = true then
      1 ≤ sizes.minBatchSize ∧ sizes.minBatchSize ≤ sizes.maxBatchSize ∧
        (AdjustsAtOnce sizes.adaptiveConfig ∨
          sizes.minBatchSize ≤ sizes.defaultBatchSize ∧
            sizes.defaultBatchSize ≤ sizes.maxBatchSize)
    else
      1 ≤ sizes.defaultBatchSize ∧ sizes.minBatchSize ≤ sizes.defaultBatchSize ∧
        sizes.defaultBatchSize ≤ sizes.maxBatchSize
  else 1 ≤ c.meilisearchBatchSize

/-! ## The sizes of single calls -/

variable {c} {s s' : ImportState} {call : ImportCall}

theorem importData_eq_some : c.importData s call = some s' ↔ c.chunkSize s call ≠ 0 ∧
    s' = ⟨s.now + call.elapsed, c.recordChunks (s.now + call.elapsed) call 0
      (call.documents.chunks (c.chunkSize s call))
      (c.batchSize (s.now + call.elapsed) s.states call).2⟩ := by
  rw [importData, chunkSize]
  dsimp only
  split
  · next hzero => exact iff_of_false (fun h => by cases h) fun h => h.1 hzero
  · next hne =>
    rw [Option.some.injEq]
    exact ⟨fun h => ⟨hne, h.symm⟩, fun h => h.2.symm⟩

theorem chunkSize_configured (h : ¬ c.batchProcessing.adaptiveBatching = true) :
    c.chunkSize s call = c.meilisearchBatchSize := by
  rw [chunkSize, batchSize, if_neg h]

theorem chunkSize_default (h : c.batchProcessing.adaptiveBatching = true)
    (htable : ¬ c.batchProcessing.adaptiveConfig.perTableOptimization = true) :
    c.chunkSize s call = c.batchProcessing.defaultBatchSize := by
  rw [chunkSize, batchSize, if_pos h, getBatchSize, if_neg htable]

/-- Adaptive batching with a size for each table -/
structure PerTable (c : ImportConfig) : Prop where
  adaptive : c.batchProcessing.adaptiveBatching = true
  perTable : c.batchProcessing.adaptiveConfig.perTableOptimization = true

/-- The state of the call's index that the call finds or creates -/
def entry (c : ImportConfig) (s : ImportState) (call : ImportCall) : TableBatchState :=
  (s.states.lookup call.indexName).getD
    (.new c.batchProcessing.defaultBatchSize (s.now + call.elapsed))

/-- The state after the adjustment -/
def adjustedEntry (c : ImportConfig) (s : ImportState) (call : ImportCall) : TableBatchState :=
  adjusted c.batchProcessing.adaptiveConfig (c.entry s call) (s.now + call.elapsed) call.memory
    c.batchProcessing.minBatchSize c.batchProcessing.maxBatchSize

theorem batchSize_perTable (h : PerTable c) :
    c.batchSize (s.now + call.elapsed) s.states call =
      ((c.adjustedEntry s call).currentBatchSize,
        s.states.insert call.indexName (c.adjustedEntry s call)) := by
  rw [batchSize, if_pos h.adaptive]
  exact getBatchSize_eq h.perTable rfl

theorem chunkSize_perTable (h : PerTable c) :
    c.chunkSize s call = (c.adjustedEntry s call).currentBatchSize := by
  rw [chunkSize, batchSize_perTable h]

/-! ## Sizes that fit stay in their bounds -/

def InBounds (c : ImportConfig) (n : Nat) : Prop :=
  c.batchProcessing.minBatchSize ≤ n ∧ n ≤ c.batchProcessing.maxBatchSize

def Bounded (c : ImportConfig) (states : Dict TableBatchState) : Prop :=
  ∀ table state, states.lookup table = some state → c.InBounds state.currentBatchSize

theorem adjustedEntry_inBounds
    (hle : c.batchProcessing.minBatchSize ≤ c.batchProcessing.maxBatchSize)
    (hentry : c.InBounds (c.entry s call).currentBatchSize) :
    c.InBounds (c.adjustedEntry s call).currentBatchSize := by
  rw [adjustedEntry]
  by_cases hdue : c.batchProcessing.adaptiveConfig.adjustmentIntervalMs ≤
      s.now + call.elapsed - (c.entry s call).lastAdjustment ∧
    c.batchProcessing.adaptiveConfig.metricWindowSize / 2 ≤ (c.entry s call).metricsWindow.length
  · rw [adjusted_of_due hdue.1 hdue.2]
    exact calculate_bounds hle
  · rw [adjusted_of_not_due hdue]
    exact hentry

theorem entry_inBounds (hdefault : c.InBounds c.batchProcessing.defaultBatchSize)
    (hs : c.Bounded s.states) : c.InBounds (c.entry s call).currentBatchSize := by
  rw [entry]
  cases hlookup : s.states.lookup call.indexName with
  | none => exact hdefault
  | some state => exact hs _ state hlookup

theorem Bounded.insert {states : Dict TableBatchState} (hs : c.Bounded states) {table : String}
    {state : TableBatchState} (hstate : c.InBounds state.currentBatchSize) :
    c.Bounded (states.insert table state) := by
  intro t st h
  rcases Dict.lookup_of_insert h with ⟨-, rfl⟩ | hold
  · exact hstate
  · exact hs t st hold

/-- What holds of the states and of the state of the index, and what recording keeps, holds after
all chunks. -/
theorem recordChunks_induction {now : Nat} {P : Dict TableBatchState → TableBatchState → Prop}
    (hstep : ∀ states state metrics, P states state →
      P (states.insert call.indexName (recorded c.batchProcessing.adaptiveConfig metrics state))
        (recorded c.batchProcessing.adaptiveConfig metrics state))
    {i : Nat} {chunks : List (List Value)} {states : Dict TableBatchState}
    {state : TableBatchState} (hlookup : states.lookup call.indexName = some state)
    (hP : P states state) :
    ∃ state', (c.recordChunks now call i chunks states).lookup call.indexName = some state' ∧
      P (c.recordChunks now call i chunks states) state' := by
  induction chunks generalizing i states state with
  | nil => exact ⟨state, hlookup, hP⟩
  | cons chunk rest ih =>
    rw [recordChunks]
    split
    · split
      · rw [recordMetrics, hlookup, Option.getD_some]
        exact ih (AList.lookup_insert _) (hstep _ _ _ hP)
      · exact ih hlookup hP
    · exact ih hlookup hP

theorem bounded_reachable (h : PerTable c)
    (hle : c.batchProcessing.minBatchSize ≤ c.batchProcessing.maxBatchSize)
    (hdefault : c.InBounds c.batchProcessing.defaultBatchSize)
    (hs : c.imports.Reachable s) : c.Bounded s.states := by
  apply hs.invariant (I := fun s => c.Bounded s.states)
  · intro s hinit table state hlookup
    rw [hinit] at hlookup
    cases hlookup
  · intro s call s' hs hstep
    obtain ⟨-, rfl⟩ := importData_eq_some.mp hstep
    have hadjusted := adjustedEntry_inBounds hle (@entry_inBounds c s call hdefault hs)
    rw [batchSize_perTable h]
    let P : Dict TableBatchState → TableBatchState → Prop := fun states state =>
      c.Bounded states ∧ c.InBounds state.currentBatchSize
    have hkeeps : ∀ states state metrics, P states state →
        P (states.insert call.indexName (recorded c.batchProcessing.adaptiveConfig metrics state))
          (recorded c.batchProcessing.adaptiveConfig metrics state) := by
      intro states state metrics hP
      have hrecorded : c.InBounds
          (recorded c.batchProcessing.adaptiveConfig metrics state).currentBatchSize := by
        rw [recorded_currentBatchSize]
        exact hP.2
      exact ⟨hP.1.insert hrecorded, hrecorded⟩
    obtain ⟨state', -, hbounded, -⟩ :=
      @recordChunks_induction c call (s.now + call.elapsed) P hkeeps
      0 (call.documents.chunks (c.chunkSize s call)) _ _ (AList.lookup_insert s.states)
      ⟨hs.insert hadjusted, hadjusted⟩
    exact hbounded

theorem sizesValid_of_fit (h : c.SizesFit) : c.SizesValid := by
  intro s hs call
  rw [SizesFit] at h
  split at h
  · next hadaptive =>
    split at h
    · next htable =>
      have hper : PerTable c := ⟨hadaptive, htable⟩
      obtain ⟨hpos, hle, hfirst⟩ := h
      have hbounds : c.InBounds (c.adjustedEntry s call).currentBatchSize := by
        rcases hfirst with hatOnce | hdefault
        · rw [adjustedEntry, adjusted_of_due (hatOnce.1 ▸ Nat.zero_le _)
            (hatOnce.2 ▸ Nat.zero_le _)]
          exact calculate_bounds hle
        · exact adjustedEntry_inBounds hle
            (entry_inBounds hdefault (bounded_reachable hper hle hdefault hs))
      rw [chunkSize_perTable hper]
      exact ⟨hpos.trans hbounds.1, fun _ => hbounds⟩
    · next htable =>
      rw [chunkSize_default hadaptive htable]
      exact ⟨h.1, fun _ => h.2⟩
  · next hconfigured =>
    rw [chunkSize_configured hconfigured]
    exact ⟨h, fun hadaptive => absurd hadaptive hconfigured⟩

/-! ## Sizes that do not fit -/

/-- Import nothing after a while, with all memory used. -/
def emptyCall (elapsed : Nat) : ImportCall := ⟨"books", [], elapsed, ⟨1, 1⟩, fun _ => none⟩

/-- Import one document, which the server accepts. -/
def oneDocument : ImportCall := ⟨"books", [.null], 0, ⟨1, 1⟩, fun _ => some 0⟩

theorem chunkSize_ne_zero (hvalid : c.SizesValid) (hs : c.imports.Reachable s) (call : ImportCall) :
    c.chunkSize s call ≠ 0 :=
  Nat.ne_of_gt (hvalid s hs call).1

theorem reachable_emptyCall (hper : PerTable c) (hvalid : c.SizesValid)
    (hs : c.imports.Reachable s) (elapsed : Nat) :
    c.imports.Reachable ⟨s.now + elapsed,
      s.states.insert "books" (c.adjustedEntry s (emptyCall elapsed))⟩ := by
  apply hs.step (l := emptyCall elapsed)
  apply importData_eq_some.mpr
  refine ⟨chunkSize_ne_zero hvalid hs _, ?_⟩
  rw [batchSize_perTable hper, emptyCall, List.chunks_nil]
  rfl

theorem reachable_oneDocument (hper : PerTable c) (hvalid : c.SizesValid)
    (hs : c.imports.Reachable s) :
    c.imports.Reachable ⟨s.now, s.states.insert "books"
      (recorded c.batchProcessing.adaptiveConfig ⟨1, 0⟩ (c.adjustedEntry s oneDocument))⟩ := by
  apply hs.step (l := oneDocument)
  apply importData_eq_some.mpr
  have hsize := (hvalid s hs oneDocument).1
  have hchunks : oneDocument.documents.chunks (c.chunkSize s oneDocument) = [[.null]] :=
    List.chunks_short (List.cons_ne_nil _ _) hsize
  refine ⟨chunkSize_ne_zero hvalid hs _, ?_⟩
  rw [batchSize_perTable hper, hchunks, recordChunks, recordChunks]
  dsimp only [oneDocument]
  rw [if_pos hper.adaptive, recordMetrics, AList.lookup_insert, Option.getD_some,
    AList.insert_insert]
  rfl

/-- Enough batches are recorded to adjust the size. -/
theorem exists_window (hper : PerTable c) (hvalid : c.SizesValid) (n : Nat)
    (hn : n ≤ c.batchProcessing.adaptiveConfig.metricWindowSize) :
    ∃ s state, c.imports.Reachable s ∧ s.states.lookup "books" = some state ∧
      n ≤ state.metricsWindow.length := by
  induction n with
  | zero =>
    exact ⟨_, _, reachable_emptyCall hper hvalid (.init rfl) 0, AList.lookup_insert _,
      Nat.zero_le _⟩
  | succ n ih =>
    obtain ⟨s, state, hs, hlookup, hlength⟩ := ih (Nat.le_of_succ_le hn)
    refine ⟨_, _, reachable_oneDocument hper hvalid hs, AList.lookup_insert _, ?_⟩
    apply le_recorded_window _ _ hn
    rw [adjustedEntry, adjusted_metricsWindow, entry, oneDocument, hlookup]
    exact Nat.succ_le_succ hlength

/-- Under pressure the size gets smaller with every adjustment, and never stays above 0. -/
theorem shrinks (hper : PerTable c) (hvalid : c.SizesValid)
    (hmin : c.batchProcessing.minBatchSize = 0)
    (n : Nat) : ∀ s state, c.imports.Reachable s → s.states.lookup "books" = some state →
      c.batchProcessing.adaptiveConfig.metricWindowSize / 2 ≤ state.metricsWindow.length →
      state.currentBatchSize ≠ n := by
  -- under full memory pressure each call makes the size smaller, and no size is the last one
  induction n using Nat.strong_induction_on with
  | h n ih =>
    rintro s state hs hlookup hwindow rfl
    let elapsed := state.lastAdjustment + c.batchProcessing.adaptiveConfig.adjustmentIntervalMs
    have hentry : c.entry s (emptyCall elapsed) = state := by
      rw [entry, emptyCall, hlookup]
      rfl
    have hsize : (c.adjustedEntry s (emptyCall elapsed)).currentBatchSize =
        min (castU64 (state.currentBatchSize * (4 / 5))) c.batchProcessing.maxBatchSize := by
      rw [adjustedEntry, hentry, adjusted_of_due ?_ hwindow, calculate_of_pressure, hmin,
        Nat.max_zero]
      · norm_num [emptyCall, SystemMemory.pressure]
      · dsimp only [emptyCall, elapsed]
        omega
    have hpos : 1 ≤ (c.adjustedEntry s (emptyCall elapsed)).currentBatchSize := by
      rw [← chunkSize_perTable hper]
      exact (hvalid s hs _).1
    have hlt : (c.adjustedEntry s (emptyCall elapsed)).currentBatchSize <
        state.currentBatchSize := by
      have hcurrent : 0 < state.currentBatchSize := by
        apply Nat.pos_of_ne_zero
        intro hzero
        rw [hsize, hzero, castU64_zero_mul, Nat.zero_min] at hpos
        exact Nat.not_succ_le_zero 0 hpos
      rw [hsize]
      exact (min_le_left _ _).trans_lt (castU64_mul_lt (by norm_num) hcurrent)
    refine ih _ hlt _ _ (reachable_emptyCall hper hvalid hs elapsed) (AList.lookup_insert _) ?_ rfl
    rw [adjustedEntry, adjusted_metricsWindow, hentry]
    exact hwindow

/-- The first call uses the default, unless it is adjusted at once. -/
theorem chunkSize_first (hper : PerTable c)
    (honce : ¬ AdjustsAtOnce c.batchProcessing.adaptiveConfig) :
    c.chunkSize ⟨0, ∅⟩ (emptyCall 0) = c.batchProcessing.defaultBatchSize := by
  rw [chunkSize_perTable hper, adjustedEntry, adjusted_of_not_due]
  · rfl
  · intro hdue
    exact honce ⟨Nat.le_zero.mp hdue.1, Nat.le_zero.mp hdue.2⟩

theorem fit_of_sizesValid (hvalid : c.SizesValid) : c.SizesFit := by
  have hfirst := hvalid ⟨0, ∅⟩ (.init rfl) (emptyCall 0)
  rw [SizesFit]
  split
  · next hadaptive =>
    obtain ⟨hmin, hmax⟩ := hfirst.2 hadaptive
    split
    · next htable =>
      have hper : PerTable c := ⟨hadaptive, htable⟩
      refine ⟨?_, hmin.trans hmax, ?_⟩
      · apply Nat.pos_of_ne_zero
        intro hzero
        obtain ⟨s, state, hs, hlookup, hwindow⟩ := exists_window hper hvalid _ (Nat.div_le_self _ 2)
        exact shrinks hper hvalid hzero _ s state hs hlookup hwindow rfl
      · by_cases honce : AdjustsAtOnce c.batchProcessing.adaptiveConfig
        · exact .inl honce
        · rw [chunkSize_first hper honce] at hmin hmax
          exact .inr ⟨hmin, hmax⟩
    · next htable =>
      rw [chunkSize_default hadaptive htable] at hfirst hmin hmax
      exact ⟨hfirst.1, hmin, hmax⟩
  · next hconfigured =>
    rw [chunkSize_configured hconfigured] at hfirst
    exact hfirst.1

/-- **The sizes of a configuration are valid in every run of imports exactly if they fit**, whatever
the validators say of it. -/
theorem sizes_valid_iff (c : ImportConfig) : c.SizesValid ↔ c.SizesFit :=
  ⟨fit_of_sizesValid, sizesValid_of_fit⟩

/-- The import program does not panic on a valid size, whatever the server answers. -/
theorem SizesValid.import_ne_panic (hvalid : c.SizesValid) (hs : c.imports.Reachable s)
    (call : ImportCall) (a : MeilisearchAdapter) (primaryKey : Option String)
    (answers : Nat → Result Unit) :
    (eval importServer answers (a.importData (c.chunkSize s call) call.indexName call.documents
      primaryKey) ⟨0, []⟩).1 ≠ .error .panic := by
  simp only [MeilisearchAdapter.importData, Prog.bind_eq, eval_bind, eval_getOrCreateIndex]
  cases answers 0 with
  | error e =>
    intro hpanic
    cases hpanic
  | ok u =>
    obtain ⟨r, hr⟩ := @eval_importChunks answers call.indexName primaryKey
      (call.documents.chunks (c.chunkSize s call)) .new ⟨1, []⟩
    rw [Result.toFault_ok, if_neg (chunkSize_ne_zero hvalid hs call)]
    dsimp only
    rw [hr]
    intro hpanic
    cases hpanic

/-- A configuration that both validators accept, with a batch size of 0 -/
def zeroBatchSize : ImportConfig where
  toConfig := Config.twoTasks "books" "shop"
  meilisearchBatchSize := 0
  batchProcessing := ⟨100, 1000, 10, false, .default⟩

theorem accepted_sizes_not_valid :
    ¬ ∀ c : ImportConfig, c.toConfig.Accepted → c.SizesValid := by
  intro hall
  have hvalid := hall zeroBatchSize ⟨rfl, rfl⟩
  have hsize := (hvalid ⟨0, ∅⟩ (.init rfl) (emptyCall 0)).1
  exact Nat.not_succ_le_zero 0 hsize

end ImportConfig

end MeiliBridge
