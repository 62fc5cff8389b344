import MeiliBridge.Destination.EventGroups

/-!
# The calls of a run

The server answers each call of the adapter as it likes, and the log keeps the calls with their
answers. `Prog` says nothing of what an answer does; what a result owes to the answers is read off
the log.
-/

set_option autoImplicit false

namespace MeiliBridge

open Interaction

/-! ## The server's log -/

/-- The calls made so far, each with its answer. -/
abbrev CallLog := List (MeiliOp × Result Unit)

/-- A server that answers every call as the environment likes. -/
def recorder : Handler MeiliOp (fun _ => Result Unit) (Result Unit) CallLog where
  exec o answer log := (answer, log ++ [(o, answer)])

/-- Every run of the program, with any answers. -/
abbrev MeiliProg.Ends {ε α : Type} (p : Prog MeiliOp (fun _ => Result Unit) ε α) (log : CallLog)
    (r : Except ε α) (log' : CallLog) : Prop :=
  Runs recorder (fun _ => True) p log r log'

theorem ends_of_run {ε α : Type} {p : Prog MeiliOp (fun _ => Result Unit) ε α} {r : Except ε α}
    {log : CallLog} (answers : List (Result Unit))
    (h : run recorder answers p [] = some (r, log)) : MeiliProg.Ends p [] r log :=
  runs_of_run (fun _ _ => trivial) h

/-- What a call hands over: documents, or ids. -/
def MeiliOp.items : MeiliOp → List (Value ⊕ String)
  | .addDocuments _ documents _ => documents.map .inl
  | .deleteDocuments _ ids => ids.map .inr
  | .getIndex _ | .getOrCreateIndex _ _ => []

/-- A call that hands something over. -/
def MeiliOp.handsOver : MeiliOp → Bool
  | .addDocuments _ _ _ | .deleteDocuments _ _ => true
  | .getIndex _ | .getOrCreateIndex _ _ => false

namespace CallLog

/-- The calls that hand something over, in order. -/
def handed (log : CallLog) : List MeiliOp := (log.map Prod.fst).filter MeiliOp.handsOver

/-- What the server has taken. -/
def taken (log : CallLog) : List (Value ⊕ String) :=
  log.flatMap fun
    | (o, .ok _) => o.items
    | (_, .error _) => []

/-- What it has refused. -/
def rejected (log : CallLog) : List (Value ⊕ String) :=
  log.flatMap fun
    | (_, .ok _) => []
    | (o, .error _) => o.items

/-- A call that hands over documents or ids, and is answered with an error. -/
def isRefusal : MeiliOp × Result Unit → Bool
  | (o, .error _) => o.handsOver
  | (_, .ok _) => false

def refusals (log : CallLog) : Nat := log.countP isRefusal

section

variable {log log' : CallLog}

@[simp] theorem handed_append : (log ++ log').handed = log.handed ++ log'.handed := by
  simp [handed]

@[simp] theorem taken_append : (log ++ log').taken = log.taken ++ log'.taken :=
  List.flatMap_append

@[simp] theorem rejected_append : (log ++ log').rejected = log.rejected ++ log'.rejected :=
  List.flatMap_append

@[simp] theorem refusals_append : (log ++ log').refusals = log.refusals + log'.refusals :=
  List.countP_append

end

theorem items_eq_nil {o : MeiliOp} (h : o.handsOver = false) : o.items = [] := by
  cases o with
  | addDocuments indexName documents primaryKey => cases h
  | deleteDocuments indexName ids => cases h
  | _ => rfl

/-- Whatever is handed over is taken or refused. -/
theorem taken_append_rejected (log : CallLog) :
    (log.taken ++ log.rejected).Perm (log.handed.flatMap MeiliOp.items) := by
  induction log with
  | nil => exact .refl _
  | cons call log ih =>
    obtain ⟨o, answer⟩ := call
    have hitems : (handed ((o, answer) :: log)).flatMap MeiliOp.items =
        o.items ++ (handed log).flatMap MeiliOp.items := by
      cases ho : o.handsOver with
      | true => simp [handed, ho]
      | false => simp [handed, ho, items_eq_nil ho]
    rw [hitems]
    cases answer with
    | ok u =>
      show (o.items ++ taken log ++ rejected log).Perm _
      rw [List.append_assoc]
      exact ih.append_left _
    | error e =>
      show (taken log ++ (o.items ++ rejected log)).Perm _
      exact (List.perm_append_comm_assoc _ _ _).trans (ih.append_left _)

/-- Where no call is refused, nothing is. -/
theorem rejected_eq_nil {log : CallLog} (h : log.refusals = 0) : log.rejected = [] := by
  rw [refusals, List.countP_eq_zero] at h
  rw [rejected, List.flatMap_eq_nil_iff]
  rintro ⟨o, answer⟩ hcall
  cases answer with
  | ok u => rfl
  | error e => exact items_eq_nil (by simpa [isRefusal] using h _ hcall)

/-- Where no call is refused, every call that hands something over is answered well. -/
theorem answered_of_handed {log : CallLog} (h : log.refusals = 0) {o : MeiliOp}
    (ho : o ∈ log.handed) : (o, .ok ()) ∈ log := by
  obtain ⟨hmem, hhands⟩ := List.mem_filter.mp ho
  obtain ⟨⟨o, answer⟩, hcall, rfl⟩ := List.mem_map.mp hmem
  rw [refusals, List.countP_eq_zero] at h
  cases answer with
  | ok u => exact hcall
  | error e => exact absurd hhands (h _ hcall)

end CallLog

namespace MeilisearchAdapter

/-- The round for an index either has an empty batch or applies it. -/
theorem processGroup_cases (a : MeilisearchAdapter) (indexName : String)
    (indexEvents : List Event) (result : SyncResult)
    {P : BatchProcessor × List MeiliBridgeError → MeiliProg SyncResult → Prop}
    (hempty : ∀ bp errors, bp.isEmpty = true →
      P (bp, errors) (pure ((errors.map MeiliBridgeError.display).foldl .addFailure result)))
    (happly : ∀ bp errors, P (bp, errors) (do
      let batchResult ← a.applyBatch bp indexName (a.batchPrimaryKey indexName)
      pure (((errors.map MeiliBridgeError.display).foldl .addFailure result).absorb batchResult))) :
    P ((BatchProcessor.new (a.batchPrimaryKey indexName)).processAll indexEvents)
      (a.processGroup indexName indexEvents result) := by
  unfold processGroup
  dsimp only
  generalize (BatchProcessor.new (a.batchPrimaryKey indexName)).processAll indexEvents = batch
  obtain ⟨bp, errors⟩ := batch
  dsimp only
  split
  · next hbatch => exact hempty bp errors hbatch
  · exact happly bp errors

end MeilisearchAdapter

end MeiliBridge
