import Mathlib.Data.List.Basic

/-!
# Histories

A history is a list of events, the last one first. `Each` says something of every event with what
came before it; `le_of_mem_take` finds the oldest of the last events of a history in the order of
time.
-/

set_option autoImplicit false

namespace History

variable {α : Type}

/-- It holds of every event with what came before. -/
def Each (P : α → List α → Prop) (history : List α) : Prop :=
  ∀ e before, e :: before <:+ history → P e before

theorem each_nil (P : α → List α → Prop) : Each P [] := by
  intro e before h
  simp at h

theorem each_cons {P : α → List α → Prop} {e : α} {history : List α} :
    Each P (e :: history) ↔ P e history ∧ Each P history := by
  constructor
  · intro h
    refine ⟨h e history (List.suffix_refl _), ?_⟩
    intro e' before hsuffix
    exact h e' before (hsuffix.trans (List.suffix_cons e history))
  · rintro ⟨hlast, hearlier⟩ e' before hsuffix
    rcases List.suffix_cons_iff.mp hsuffix with heq | hsuffix
    · obtain ⟨rfl, rfl⟩ := List.cons.inj heq
      exact hlast
    · exact hearlier e' before hsuffix

/-- No event is older than the one before it in the list is young. -/
def InOrder (time : α → Nat) (history : List α) : Prop :=
  history.Pairwise fun e e' => time e' ≤ time e

/-- The oldest of the last events -/
theorem InOrder.le_of_mem_take {time : α → Nat} {history : List α} (h : InOrder time history)
    {n : Nat} {oldest : α} (holdest : history[n]? = some oldest) {e : α}
    (he : e ∈ history.take (n + 1)) : time oldest ≤ time e := by
  induction history generalizing n with
  | nil => simp at holdest
  | cons first history ih =>
    obtain ⟨hfirst, hrest⟩ := List.pairwise_cons.mp h
    rw [List.take_succ_cons, List.mem_cons] at he
    cases n with
    | zero =>
      obtain rfl : first = oldest := by simpa using holdest
      rcases he with rfl | he
      · exact Nat.le_refl _
      · simp at he
    | succ n =>
      rw [List.getElem?_cons_succ] at holdest
      rcases he with rfl | he
      · exact hfirst oldest (List.mem_of_getElem? holdest)
      · exact ih hrest holdest he

end History
