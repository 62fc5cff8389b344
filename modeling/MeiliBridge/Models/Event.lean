import MeiliBridge.Base.Value
import MeiliBridge.Models.Error

/-!
# Positions, events, checkpoints

The records that flow through the bridge. A `CdcEvent`'s own timestamp is left out, since nothing
reads it; wall-clock times elsewhere are milliseconds since the epoch.
-/

set_option autoImplicit false

namespace MeiliBridge

/-! ## Positions -/

/-- A place in a source's change stream. -/
inductive Position where
  | postgreSQL (lsn : String)
  | mySQL (file : String) (position : UInt64)
  | mongoDB (resumeToken : String)
  deriving DecidableEq

/-- One half of an LSN, `0` where it is no hexadecimal number of 64 bits. -/
def Position.lsnPart (s : String) : Nat := (Text.parseU64 16 s).getD 0

/-- `Position::is_after` -/
def Position.isAfter : Position → Position → Bool
  | .postgreSQL lsn1, .postgreSQL lsn2 =>
    match Text.split '/' lsn1, Text.split '/' lsn2 with
    | [h1, l1], [h2, l2] =>
      let hi1 := lsnPart h1
      let lo1 := lsnPart l1
      let hi2 := lsnPart h2
      let lo2 := lsnPart l2
      decide (hi2 < hi1 ∨ (hi1 = hi2 ∧ lo2 < lo1))
    | _, _ => false
  | .mySQL f1 p1, .mySQL f2 p2 => decide (f2 < f1 ∨ (f1 = f2 ∧ p2 < p1))
  | _, _ => false

theorem Position.isAfter_asymm {p q : Position} (h : p.isAfter q = true) :
    q.isAfter p = false := by
  cases p with
  | postgreSQL lsn₁ =>
    cases q with
    | postgreSQL lsn₂ =>
      simp only [isAfter] at h ⊢
      split at h
      · next h₁ l₁ h₂ l₂ hs₁ hs₂ =>
        simp only [hs₁, hs₂, decide_eq_true_eq, decide_eq_false_iff_not] at h ⊢
        omega
      · cases h
    | _ => cases h
  | mySQL f₁ p₁ =>
    cases q with
    | mySQL f₂ p₂ =>
      simp only [isAfter, decide_eq_true_eq, decide_eq_false_iff_not] at h ⊢
      rcases h with h | ⟨rfl, h⟩
      · rintro (h' | ⟨rfl, -⟩)
        · exact String.lt_asymm h h'
        · exact String.lt_irrefl _ h
      · rintro (h' | ⟨-, h'⟩)
        · exact String.lt_irrefl _ h'
        · exact UInt64.lt_asymm h h'
    | _ => cases h
  | mongoDB token => cases q <;> cases h

/-- At the other position or after it. -/
def Position.AtOrAfter (p q : Position) : Prop := p = q ∨ p.isAfter q = true

theorem Position.not_atOrAfter {p q : Position} (h : q.isAfter p = true) : ¬ p.AtOrAfter q := by
  rintro (rfl | h')
  · simp [isAfter_asymm h] at h
  · simp [isAfter_asymm h] at h'

theorem Position.isAfter_self (p : Position) : p.isAfter p = false := by
  cases h : p.isAfter p with
  | false => rfl
  | true => exact h ▸ isAfter_asymm h

/-! ## Stream events -/

inductive EventType where
  | create
  | update
  | delete
  | truncate
  | schema
  deriving DecidableEq

structure CdcEvent where
  eventType : EventType
  table : String
  schema : String
  data : Fields
  position : Option Position
  deriving DecidableEq

/-- The events of the streaming pipeline. -/
inductive Event where
  | cdc (e : CdcEvent)
  | fullSync (table : String) (data : Value)
  | insert (table : String) (newData : Value) (position : Option Position)
  | update (table : String) (oldData newData : Value) (position : Option Position)
  | delete (table : String) (oldData : Value) (position : Option Position)
  | checkpoint (position : Position)
  | heartbeat
  deriving DecidableEq

/-- CDC events and full-sync records: what the rewriting stages rewrite and the destination
routes. -/
def Event.isRecord : Event → Bool
  | .cdc _ | .fullSync _ _ => true
  | _ => false

/-- What a rewriting stage keeps of an event: only the table and the data of a CDC event or of a
full-sync record may change. -/
def Event.Rewritten : Event → Event → Prop
  | .cdc e, .cdc e' => ∃ table data, e' = { e with table, data }
  | .fullSync _ _, .fullSync _ _ => True
  | e, e' => e' = e

theorem Event.Rewritten.refl (e : Event) : Event.Rewritten e e := by
  cases e with
  | cdc e => exact ⟨e.table, e.data, rfl⟩
  | _ => simp [Event.Rewritten]

theorem Event.Rewritten.trans {e₁ e₂ e₃ : Event} (h : Event.Rewritten e₁ e₂)
    (h' : Event.Rewritten e₂ e₃) : Event.Rewritten e₁ e₃ := by
  cases e₁ with
  | cdc e =>
    cases e₂ with
    | cdc e₂ =>
      obtain ⟨t, d, rfl⟩ := h
      cases e₃ with
      | cdc e₃ =>
        obtain ⟨t', d', rfl⟩ := h'
        exact ⟨t', d', rfl⟩
      | _ => cases h'
    | _ => cases h
  | fullSync t d =>
    cases e₂ with
    | fullSync t₂ d₂ => cases e₃ <;> trivial
    | _ => cases h
  | _ => cases h; exact h'

/-! ## The event record of the dead letter queue -/

structure EventSource where
  database : String
  schema : String
  table : String
  deriving DecidableEq

structure EventData where
  key : Value
  old : Option Fields
  new : Option Fields
  deriving DecidableEq

structure EventMetadata where
  transactionId : Option String
  position : String
  custom : Fields
  deriving DecidableEq

structure ModelsEvent where
  id : String
  eventType : EventType
  source : EventSource
  data : EventData
  metadata : EventMetadata
  timestamp : Nat
  deriving DecidableEq

/-! ## Checkpoints -/

/-- A stored resume point. Its statistics are always the empty ones and are left out. -/
structure Checkpoint where
  id : String
  taskId : String
  position : Position
  createdAt : Nat
  metadata : Value
  deriving DecidableEq

/-- `metadata.get("committed").and_then(|v| v.as_bool())` -/
def Checkpoint.committed (cp : Checkpoint) : Option Bool :=
  (cp.metadata.get "committed").bind Value.asBool

end MeiliBridge
