import MeiliBridge.Delivery.Manager

/-!
# What the managers' methods leave alone

Each operation has one effect on the world. A program that performs operations of some effects
only (`Prog.Only`) leaves alone whatever the others change; the methods of the two transaction
stores are classified here, so that no later proof walks through their branches again.
-/

set_option autoImplicit false

namespace MeiliBridge

open Interaction

/-- The part of the world an operation can change. -/
inductive Effect where
  /-- nothing but the two transaction tables -/
  | books
  | saves
  | deletes
  /-- the deduplication window -/
  | marks
  | sends
  | deadLetters
  /-- the in-memory checkpoint -/
  | moves
  deriving DecidableEq

def Op.effect : Op → Effect
  | .clock | .newUuid | .loadCheckpoint _ | .lockTransactions | .setTransactions _ => .books
  | .deduplicatorContains _ | .checkpointHandler => .books
  | .twoPhaseBegin _ _ _ | .twoPhaseCommit _ | .twoPhaseAbort _ => .books
  | .saveCheckpoint _ => .saves
  | .deleteCheckpoint _ => .deletes
  | .deduplicatorAdd _ => .marks
  | .processEvents _ => .sends
  | .storeDeadLetter _ _ => .deadLetters
  | .setCheckpoint _ _ => .moves

/-- Operations with one of the effects `es`. -/
def Op.Within (es : List Effect) (o : Op) : Prop := o.effect ∈ es

theorem Op.Within.mono {es es' : List Effect} (h : ∀ e ∈ es, e ∈ es') {o : Op}
    (ho : o.Within es) : o.Within es' := h _ ho

theorem Op.Within.not {es es' : List Effect} (h : ∀ e ∈ es, e ∉ es') {o : Op}
    (ho : o.Within es) : ¬ o.Within es' := h _ ho

instance (es : List Effect) (o : Op) : Decidable (o.Within es) :=
  inferInstanceAs (Decidable (o.effect ∈ es))

namespace World

variable {c : Choice} {w : World} {o : Op}

@[simp] theorem handler_exec (o : Op) (c : Choice) (w : World) :
    handler.exec o c w = w.exec c o := rfl

theorem call_log {reply : Reply} {w w' : World} (h : w.log <+: w'.log) :
    w.log <+: (reply.call w w').2.log := by
  cases reply with
  | succeeds => exact h
  | fails e applied =>
    cases applied
    · exact List.prefix_refl _
    · exact h

/-- What was observed stays observed. -/
theorem log_prefix (c : Choice) (w : World) (o : Op) : w.log <+: (w.exec c o).2.log := by
  cases o with
  | loadCheckpoint taskId =>
    simp only [exec]
    split <;> exact List.prefix_refl _
  | saveCheckpoint cp => exact call_log (List.prefix_refl _)
  | deleteCheckpoint taskId => exact call_log (List.prefix_refl _)
  | processEvents events => exact List.prefix_append _ _
  | storeDeadLetter entry source => exact call_log (List.prefix_append _ _)
  | setCheckpoint taskId position => exact List.prefix_append _ _
  | _ => exact List.prefix_refl _

theorem call_eq {α : Type} (f : World → α) {reply : Reply} {w w' : World} (h : f w' = f w) :
    f (reply.call w w').2 = f w := by
  cases reply with
  | succeeds => exact h
  | fails e applied =>
    cases applied
    · rfl
    · exact h

theorem log_frame (h : o.Within [.books, .saves, .deletes, .marks]) :
    (w.exec c o).2.log = w.log := by
  cases o with
  | loadCheckpoint taskId =>
    simp only [exec]
    split <;> rfl
  | saveCheckpoint cp => exact call_eq World.log rfl
  | deleteCheckpoint taskId => exact call_eq World.log rfl
  | processEvents | storeDeadLetter | setCheckpoint => simp [Op.Within, Op.effect] at h
  | _ => rfl

theorem deduplicator_frame (h : ¬ o.Within [.marks]) :
    (w.exec c o).2.deduplicator = w.deduplicator := by
  cases o with
  | loadCheckpoint taskId =>
    simp only [exec]
    split <;> rfl
  | saveCheckpoint cp => exact call_eq World.deduplicator rfl
  | deleteCheckpoint taskId => exact call_eq World.deduplicator rfl
  | storeDeadLetter entry source => exact call_eq World.deduplicator rfl
  | deduplicatorAdd key => simp [Op.Within, Op.effect] at h
  | _ => rfl

theorem storage_frame (h : ¬ o.Within [.saves, .deletes]) :
    (w.exec c o).2.storage = w.storage := by
  cases o with
  | loadCheckpoint taskId =>
    simp only [exec]
    split <;> rfl
  | saveCheckpoint | deleteCheckpoint => simp [Op.Within, Op.effect] at h
  | storeDeadLetter entry source => exact call_eq World.storage rfl
  | _ => rfl

end World

/-! ## The methods -/

section Methods

variable {es : List Effect}

theorem only_of_books {o : Op} (hb : Effect.books ∈ es) (ho : o.effect = .books) :
    (Prog.perform o : TaskProg o.Ans).Only (Op.Within es) :=
  Prog.only_perform.mpr (by rw [Op.Within, ho]; exact hb)

theorem only_orThrow {α : Type} {S : Op → Prop} {p : TaskProg (Result α)} (h : p.Only S) :
    (orThrow p).Only S :=
  Prog.only_bind (fun _ => Prog.only_lift) h

namespace TransactionalCheckpoint

theorem beginTransaction_only (hb : Effect.books ∈ es) (transactionId taskId : String)
    (position : Position) :
    (beginTransaction transactionId taskId position).Only (Op.Within es) := by
  apply Prog.only_bind
  · intro txns
    apply Prog.only_ite
    · trivial
    · apply Prog.only_bind
      · intro now
        exact only_of_books hb rfl
      · exact only_of_books hb rfl
  · exact only_of_books hb rfl

theorem discardPrepared_only (hd : Effect.deletes ∈ es)
    (txn : CheckpointTransaction) : (discardPrepared txn).Only (Op.Within es) := by
  apply Prog.only_ite
  · apply Prog.only_bind
    · intro _
      trivial
    · exact Prog.only_perform.mpr hd
  · trivial

theorem rollback_only (hb : Effect.books ∈ es) (hd : Effect.deletes ∈ es)
    (transactionId : String) : (rollback transactionId).Only (Op.Within es) := by
  apply Prog.only_bind
  · intro txns
    split
    · trivial
    · apply Prog.only_bind
      · intro _
        exact only_of_books hb rfl
      · exact discardPrepared_only hd _
  · exact only_of_books hb rfl

/-- The operations of `prepare`: the only record it saves is not marked as committed. -/
def Prepares (o : Op) : Prop :=
  o.effect = .books ∨ ∃ cp, o = .saveCheckpoint cp ∧ cp.committed = some false

theorem prepare_prepares (transactionId : String) : (prepare transactionId).Only Prepares := by
  apply Prog.only_bind
  · intro txns
    split
    · trivial
    · apply Prog.only_ite
      · trivial
      · apply Prog.only_bind
        · intro id
          apply Prog.only_bind
          · intro now
            apply Prog.only_bind
            · intro saved
              split
              · apply Prog.only_bind
                · intro _
                  trivial
                · exact Prog.only_perform.mpr (Or.inl rfl)
              · trivial
            · exact Prog.only_perform.mpr (Or.inr ⟨_, rfl, rfl⟩)
          · exact Prog.only_perform.mpr (Or.inl rfl)
        · exact Prog.only_perform.mpr (Or.inl rfl)
  · exact Prog.only_perform.mpr (Or.inl rfl)

theorem prepare_only (hb : Effect.books ∈ es) (hs : Effect.saves ∈ es) (transactionId : String) :
    (prepare transactionId).Only (Op.Within es) := by
  refine (prepare_prepares transactionId).mono ?_
  rintro o (ho | ⟨cp, rfl, -⟩)
  · rw [Op.Within, ho]
    exact hb
  · exact hs

theorem commit_only (hb : Effect.books ∈ es) (hs : Effect.saves ∈ es) (transactionId : String) :
    (commit transactionId).Only (Op.Within es) := by
  apply Prog.only_bind
  · intro txns
    split
    · trivial
    · apply Prog.only_ite
      · trivial
      · apply Prog.only_ite
        · trivial
        · apply Prog.only_bind
          · intro loaded
            split
            · trivial
            · apply Prog.only_bind
              · intro now
                apply Prog.only_bind
                · intro _
                  exact only_of_books hb rfl
                · exact only_orThrow (Prog.only_perform.mpr hs)
              · exact only_of_books hb rfl
          · exact only_orThrow (only_of_books hb rfl)
  · exact only_of_books hb rfl

end TransactionalCheckpoint

namespace AtLeastOnceManager

theorem beginTransaction_only (hb : Effect.books ∈ es) (cfg : AtLeastOnceConfig)
    (taskId : String) : (beginTransaction cfg taskId).Only (Op.Within es) := by
  apply Prog.only_ite
  · trivial
  · apply Prog.only_bind
    · intro uuid
      apply Prog.only_bind
      · intro now
        apply Prog.only_bind
        · intro _
          trivial
        · exact only_orThrow (only_of_books hb rfl)
      · exact only_of_books hb rfl
    · exact only_of_books hb rfl

theorem commit_only (hb : Effect.books ∈ es) (hs : Effect.saves ∈ es) (cfg : AtLeastOnceConfig)
    (transactionId : String) : (commit cfg transactionId).Only (Op.Within es) := by
  apply Prog.only_ite
  · trivial
  · apply Prog.only_bind
    · intro handler
      apply Prog.only_bind
      · intro _
        exact only_orThrow (only_of_books hb rfl)
      · apply Prog.only_ite
        · exact TransactionalCheckpoint.commit_only hb hs transactionId
        · trivial
    · exact only_of_books hb rfl

theorem rollback_only (hb : Effect.books ∈ es) (hd : Effect.deletes ∈ es)
    (cfg : AtLeastOnceConfig) (transactionId : String) :
    (rollback cfg transactionId).Only (Op.Within es) := by
  apply Prog.only_ite
  · trivial
  · apply Prog.only_bind
    · intro handler
      apply Prog.only_bind
      · intro _
        exact only_of_books hb rfl
      · apply Prog.only_ite
        · apply Prog.only_bind
          · intro _
            trivial
          · exact Prog.only_attempt (TransactionalCheckpoint.rollback_only hb hd transactionId)
        · trivial
    · exact only_of_books hb rfl

end AtLeastOnceManager

end Methods

end MeiliBridge
