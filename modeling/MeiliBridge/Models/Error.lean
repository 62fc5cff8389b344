import Mathlib.Logic.Basic

/-!
# Errors

`MeiliBridgeError` with its printed form. An error that wraps one of another library keeps that
library's message. A `Fault` is what can cut a function short: an error it returns, or a panic of
an `unwrap`, which ends the task that runs it.
-/

set_option autoImplicit false

namespace MeiliBridge

inductive MeiliBridgeError where
  | config (msg : String)
  | configuration (msg : String)
  | io (msg : String)
  | serialization (msg : String)
  | yaml (msg : String)
  | envVar (msg : String)
  | validation (msg : String)
  | source (msg : String)
  | database (msg : String)
  | meilisearch (msg : String)
  | plugin (msg : String)
  | channelSend
  | channelReceive
  | pipeline (msg : String)
  | notFound (msg : String)
  | redis (msg : String)
  | resourceExhausted (msg : String)
  deriving DecidableEq

def MeiliBridgeError.display : MeiliBridgeError → String
  | .config msg | .configuration msg => s!"Configuration error: {msg}"
  | .io msg => s!"IO error: {msg}"
  | .serialization msg => s!"Serialization error: {msg}"
  | .yaml msg => s!"YAML parsing error: {msg}"
  | .envVar msg => s!"Environment variable error: {msg}"
  | .validation msg => s!"Validation error: {msg}"
  | .source msg => s!"Source error: {msg}"
  | .database msg => s!"Database error: {msg}"
  | .meilisearch msg => s!"Meilisearch error: {msg}"
  | .plugin msg => s!"Plugin error: {msg}"
  | .channelSend => "Channel send error"
  | .channelReceive => "Channel receive error"
  | .pipeline msg => s!"Pipeline error: {msg}"
  | .notFound msg => s!"Not found: {msg}"
  | .redis msg => s!"Redis error: {msg}"
  | .resourceExhausted msg => s!"Resource exhausted: {msg}"

inductive Fault where
  | err (e : MeiliBridgeError)
  | panic
  deriving DecidableEq

/-- `Result<T>` -/
abbrev Result (α : Type) := Except MeiliBridgeError α

/-- What becomes of a call to another system: it succeeds, or it answers an error, having taken
effect or not. -/
inductive Reply where
  | succeeds
  | fails (e : MeiliBridgeError) (applied : Bool)
  deriving DecidableEq

/-- Whether the call has taken effect, whatever it answers. -/
def Reply.takesEffect : Reply → Bool
  | .succeeds => true
  | .fails _ applied => applied

/-- The answer to a call, and the state after it, where `w'` is the state if it takes effect. -/
def Reply.call {W : Type} (reply : Reply) (w w' : W) : Result Unit × W :=
  match reply with
  | .succeeds => (.ok (), w')
  | .fails e applied => (.error e, if applied then w' else w)

theorem Reply.call_snd {W : Type} (reply : Reply) (w w' : W) :
    (reply.call w w').2 = if reply.takesEffect then w' else w := by
  cases reply <;> rfl

/-- A result as the outcome of a function that might also have panicked. -/
def Result.toFault {α : Type} (r : Result α) : Except Fault α := r.mapError .err

@[simp] theorem Result.toFault_ok {α : Type} (a : α) : Result.toFault (.ok a) = .ok a := rfl

theorem bind_eq_ok {ε α β : Type} {x : Except ε α} {f : α → Except ε β} {b : β} :
    (x >>= f) = .ok b ↔ ∃ a, x = .ok a ∧ f a = .ok b := by
  cases x with
  | ok a =>
    constructor
    · exact fun h => ⟨a, rfl, h⟩
    · rintro ⟨_, ha, h⟩
      cases ha
      exact h
  | error e =>
    constructor
    · intro h
      cases h
    · rintro ⟨_, ha, -⟩
      cases ha

end MeiliBridge
