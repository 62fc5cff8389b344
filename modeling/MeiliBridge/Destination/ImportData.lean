import MeiliBridge.Destination.Adapter
import MeiliBridge.Lib.Chunks

/-!
# Importing documents

`import_data` sends the documents of a full sync in chunks. A chunk that the server refuses is
counted and the others are sent all the same; only an index that cannot be opened is an error.
-/

set_option autoImplicit false

namespace MeiliBridge

open Interaction

/-- A program that answers errors, as part of one that may panic as well. -/
def MeiliProg.orFault {α : Type} :
    MeiliProg α → Prog MeiliOp (fun _ => Result Unit) Fault α
  | .done r => .done (Result.toFault r)
  | .act o k => .act o fun answer => orFault (k answer)

namespace MeilisearchAdapter

def importChunks (indexName : String) (primaryKey : Option String) :
    List (List Value) → SyncResult → Prog MeiliOp (fun _ => Result Unit) Fault SyncResult
  | [], result => pure result
  | chunk :: rest, result => do
    let answer ← .perform (.addDocuments indexName chunk primaryKey)
    importChunks indexName primaryKey rest (record result "Import" chunk.length answer)

/-- `import_data`, with the batch size that the adaptive batching or the configuration gives;
`chunks` panics on a size of 0. -/
def importData (a : MeilisearchAdapter) (batchSize : Nat) (indexName : String)
    (documents : List Value) (primaryKey : Option String) :
    Prog MeiliOp (fun _ => Result Unit) Fault SyncResult := do
  let pk := primaryKey.or ((tablePrimaryKeys.lookup indexName).or a.primaryKey)
  (a.getOrCreateIndex indexName pk).orFault
  if batchSize = 0 then .fail .panic
  else importChunks indexName primaryKey (documents.chunks batchSize) .new

end MeilisearchAdapter

/-! ## What the server accepts -/

/-- The calls of the server so far, and the documents it has accepted. -/
structure Imported where
  calls : Nat
  accepted : List Value

/-- A server that answers its i-th call with `answers i`. -/
def importServer :
    Handler MeiliOp (fun _ => Result Unit) (Nat → Result Unit) Imported where
  exec o answers w :=
    (answers w.calls, ⟨w.calls + 1,
      match o, answers w.calls with
      | .addDocuments _ documents _, .ok () => w.accepted ++ documents
      | _, _ => w.accepted⟩)

/-- The documents of the chunks that are accepted, from the n-th call on. -/
def acceptedChunks (answers : Nat → Result Unit) : Nat → List (List Value) → List Value
  | _, [] => []
  | n, chunk :: rest =>
    (match answers n with
      | .ok () => chunk
      | .error _ => []) ++ acceptedChunks answers (n + 1) rest

section Accepted

variable {answers : Nat → Result Unit}

theorem acceptedChunks_sublist (n : Nat) (chunks : List (List Value)) :
    (acceptedChunks answers n chunks).Sublist chunks.flatten := by
  induction chunks generalizing n with
  | nil => exact List.Sublist.refl _
  | cons chunk rest ih =>
    rw [acceptedChunks, List.flatten_cons]
    refine List.Sublist.append ?_ (ih (n + 1))
    split
    · exact List.Sublist.refl _
    · exact List.nil_sublist _

/-- Everything is accepted exactly when each chunk is. -/
theorem acceptedChunks_eq_iff {chunks : List (List Value)} (hne : ∀ chunk ∈ chunks, chunk ≠ [])
    (n : Nat) : acceptedChunks answers n chunks = chunks.flatten ↔
      ∀ j, j < chunks.length → answers (n + j) = .ok () := by
  induction chunks generalizing n with
  | nil => simp [acceptedChunks]
  | cons chunk rest ih =>
    have ih := ih (fun c hc => hne c (List.mem_cons_of_mem _ hc)) (n + 1)
    have hsub := @acceptedChunks_sublist answers (n + 1) rest
    rw [acceptedChunks, List.flatten_cons]
    cases hanswer : answers n with
    | ok u =>
      rw [List.append_cancel_left_eq, ih]
      constructor
      · intro h j hj
        cases j with
        | zero => exact hanswer
        | succ j =>
          rw [show n + (j + 1) = n + 1 + j by omega]
          exact h j (Nat.lt_of_succ_lt_succ hj)
      · intro h j hj
        rw [show n + 1 + j = n + (j + 1) by omega]
        exact h (j + 1) (Nat.succ_lt_succ hj)
    | error e =>
      have hpos := List.length_pos_iff.mpr (hne chunk List.mem_cons_self)
      refine iff_of_false (fun heq => ?_) fun h => ?_
      · have hlen := congrArg List.length heq
        rw [List.nil_append, List.length_append] at hlen
        have hle := hsub.length_le
        omega
      · have hok := h 0 (Nat.succ_pos _)
        rw [Nat.add_zero, hanswer] at hok
        cases hok

theorem eval_importChunks (indexName : String) (primaryKey : Option String)
    (chunks : List (List Value)) (result : SyncResult) (w : Imported) :
    ∃ r, eval importServer answers
        (MeilisearchAdapter.importChunks indexName primaryKey chunks result) w =
      (.ok r, ⟨w.calls + chunks.length, w.accepted ++ acceptedChunks answers w.calls chunks⟩) := by
  induction chunks generalizing result w with
  | nil =>
    refine ⟨result, ?_⟩
    rw [acceptedChunks, List.append_nil]
    rfl
  | cons chunk rest ih =>
    let next : Imported :=
      (importServer.exec (.addDocuments indexName chunk primaryKey) answers w).2
    obtain ⟨r, hr⟩ := ih (MeilisearchAdapter.record result "Import" chunk.length
      (answers w.calls)) next
    refine ⟨r, hr.trans ?_⟩
    have haccepted : next.accepted = w.accepted ++
        (acceptedChunks answers w.calls [chunk]) := by
      simp only [next, importServer, acceptedChunks]
      cases answers w.calls <;> simp
    have hcalls : next.calls = w.calls + 1 := rfl
    rw [haccepted, hcalls]
    simp only [acceptedChunks, List.append_nil, List.append_assoc, List.length_cons]
    rw [show w.calls + 1 + rest.length = w.calls + (rest.length + 1) by omega]

/-- An index that is opened, or an error of the server. -/
theorem eval_getOrCreateIndex (a : MeilisearchAdapter) (indexName : String)
    (primaryKey : Option String) (w : Imported) :
    eval importServer answers (a.getOrCreateIndex indexName primaryKey).orFault w =
      (Result.toFault (answers w.calls), ⟨w.calls + 1, w.accepted⟩) := by
  unfold MeilisearchAdapter.getOrCreateIndex
  cases a.autoCreateIndex <;> rfl

theorem eval_importData (a : MeilisearchAdapter) (batchSize : Nat) (indexName : String)
    (documents : List Value) (primaryKey : Option String) :
    (∃ r, eval importServer answers
      (a.importData batchSize indexName documents primaryKey) ⟨0, []⟩ =
      (.ok r, ⟨1 + (documents.chunks batchSize).length,
        acceptedChunks answers 1 (documents.chunks batchSize)⟩) ∧
      answers 0 = .ok () ∧ 0 < batchSize) ∨
    (∃ fault, eval importServer answers (a.importData batchSize indexName documents primaryKey)
        ⟨0, []⟩ = (.error fault, ⟨1, []⟩) ∧ ¬ (answers 0 = .ok () ∧ 0 < batchSize)) := by
  have hindex := @eval_getOrCreateIndex answers a indexName
    (primaryKey.or ((MeilisearchAdapter.tablePrimaryKeys.lookup indexName).or a.primaryKey)) ⟨0, []⟩
  simp only [MeilisearchAdapter.importData, Prog.bind_eq, eval_bind, hindex]
  cases hanswer : answers 0 with
  | error e => exact .inr ⟨.err e, rfl, fun h => by cases h.1⟩
  | ok u =>
    by_cases hzero : batchSize = 0
    · refine .inr ⟨.panic, ?_, fun h => absurd hzero (Nat.ne_of_gt h.2)⟩
      simp only [Result.toFault_ok, if_pos hzero]
      rfl
    · obtain ⟨r, hr⟩ := @eval_importChunks answers indexName primaryKey
        (documents.chunks batchSize) .new ⟨1, []⟩
      refine .inl ⟨r, ?_, rfl, Nat.pos_of_ne_zero hzero⟩
      simp only [Result.toFault_ok, if_neg hzero]
      exact hr

end Accepted

end MeiliBridge
