import Mathlib.Logic.Relation

/-!
# A fair read-write lock

Tasks queue for the lock in the order of their requests, as readers or as writers. A grant takes the
head of the queue: a reader when no writer holds the lock, a writer when nobody does. That readers
and a writer never hold it together is part of the type.

`Grantable` asks whether a task that queues as a reader gets the lock without a release by anybody.
A writer that holds the lock keeps every one of them out.
-/

set_option autoImplicit false

namespace Sync

inductive LockMode where
  | read
  | write

structure RwLock (τ : Type) where
  writer : Option τ
  readers : List τ
  queue : List (τ × LockMode)
  exclusive : writer = none ∨ readers = []

namespace RwLock

variable {τ : Type}

/-- Nobody holds the lock or waits for it. -/
def free : RwLock τ := ⟨none, [], [], .inl rfl⟩

def request (l : RwLock τ) (t : τ) (mode : LockMode) : RwLock τ :=
  { l with queue := l.queue ++ [(t, mode)] }

/-- The head of the queue gets the lock, if it can. -/
def grant (l : RwLock τ) : Option (RwLock τ) :=
  match l.queue with
  | [] => none
  | (t, .read) :: rest =>
    match l.writer with
    | none => some ⟨none, t :: l.readers, rest, .inl rfl⟩
    | some _ => none
  | (t, .write) :: rest =>
    match l.writer, l.readers with
    | none, [] => some ⟨some t, [], rest, .inr rfl⟩
    | _, _ => none

/-- The writer leaves. -/
def releaseWrite (l : RwLock τ) : RwLock τ := { l with writer := none, exclusive := .inl rfl }

/-- A reader leaves. -/
def releaseRead [DecidableEq τ] (l : RwLock τ) (t : τ) : RwLock τ where
  writer := l.writer
  readers := l.readers.erase t
  queue := l.queue
  exclusive := by
    rcases l.exclusive with h | h
    · exact .inl h
    · exact .inr (by rw [h, List.erase_nil])

/-- Grants alone make the task a reader. -/
def Grantable (l : RwLock τ) (t : τ) : Prop :=
  ∃ l', Relation.ReflTransGen (fun a b => grant a = some b) l l' ∧ t ∈ l'.readers

theorem readers_of_writer {l : RwLock τ} {w : τ} (h : l.writer = some w) : l.readers = [] := by
  rcases l.exclusive with hnone | hreaders
  · rw [h] at hnone
    cases hnone
  · exact hreaders

/-- While a writer holds the lock, nothing is granted. -/
theorem grant_of_writer {l : RwLock τ} {w : τ} (h : l.writer = some w) : l.grant = none := by
  unfold grant
  split
  · rfl
  · rw [h]
  · rw [h]

/-- A writer keeps all readers out. -/
theorem not_grantable_of_writer {l : RwLock τ} {w : τ} (h : l.writer = some w) (t : τ) :
    ¬ l.Grantable t := by
  intro hgrantable
  obtain ⟨l', hgrants, hmem⟩ := hgrantable
  rcases hgrants.cases_head with rfl | ⟨l'', hgrant, -⟩
  · rw [readers_of_writer h] at hmem
    cases hmem
  · rw [grant_of_writer h] at hgrant
    cases hgrant

/-- A reader that asks for a lock that nobody holds or waits for gets it. -/
theorem grantable_of_free {l : RwLock τ} (hwriter : l.writer = none) (hqueue : l.queue = [])
    (t : τ) : (l.request t .read).Grantable t := by
  refine ⟨⟨none, t :: l.readers, [], .inl rfl⟩, .single ?_, List.mem_cons_self⟩
  simp [grant, request, hqueue, hwriter]

end RwLock

end Sync
