import Mathlib.Logic.Basic

/-!
# Loops

A loop is given by its turn, which looks at the state and goes on with another one or leaves with a
result. `run` takes a bounded number of turns, so that the question whether a loop is ever left is
one about `run`: it `Finishes` if some number of turns is enough, and `Diverges` if none is.

In a checked loop (`orFail`) an access can fail, which ends the loop with that failure.
-/

set_option autoImplicit false

namespace Loop

inductive Turn (σ α : Type) where
  | next (s : σ)
  | done (a : α)

variable {σ α ε : Type}

/-- The result of the loop, if it is left within `fuel` turns -/
def run (turn : σ → Turn σ α) : Nat → σ → Option α
  | 0, _ => none
  | fuel + 1, s =>
    match turn s with
    | .next s' => run turn fuel s'
    | .done a => some a

def Finishes (turn : σ → Turn σ α) (s : σ) (a : α) : Prop :=
  ∃ fuel, run turn fuel s = some a

def Diverges (turn : σ → Turn σ α) (s : σ) : Prop := ∀ fuel, run turn fuel s = none

variable {turn : σ → Turn σ α} {s s' : σ} {a : α}

theorem run_next {fuel : Nat} (h : turn s = .next s') :
    run turn (fuel + 1) s = run turn fuel s' := by
  simp [run, h]

theorem run_done {fuel : Nat} (h : turn s = .done a) : run turn (fuel + 1) s = some a := by
  simp [run, h]

/-- More turns than are needed change nothing. -/
theorem run_mono {fuel more : Nat} (hmore : fuel ≤ more) (h : run turn fuel s = some a) :
    run turn more s = some a := by
  induction fuel generalizing s more with
  | zero => cases h
  | succ fuel ih =>
    obtain ⟨rest, rfl⟩ := Nat.exists_eq_add_of_le hmore
    rw [Nat.add_right_comm]
    cases hturn : turn s with
    | next s' =>
      rw [run_next hturn] at h ⊢
      exact ih (Nat.le_add_right fuel rest) h
    | done a' =>
      rw [run_done hturn] at h ⊢
      exact h

theorem Finishes.of_done (h : turn s = .done a) : Finishes turn s a := ⟨1, run_done h⟩

theorem Finishes.of_next (hturn : turn s = .next s') (h : Finishes turn s' a) :
    Finishes turn s a := by
  obtain ⟨fuel, hfuel⟩ := h
  exact ⟨fuel + 1, (run_next hturn).trans hfuel⟩

/-- From some number of turns on, the loop gives its result. -/
theorem Finishes.eventually (h : Finishes turn s a) :
    ∃ n, ∀ fuel, n ≤ fuel → run turn fuel s = some a := by
  obtain ⟨n, hn⟩ := h
  exact ⟨n, fun fuel hfuel => run_mono hfuel hn⟩

/-- A set of states that every turn stays in is never left. -/
theorem diverges_of_invariant (I : σ → Prop)
    (hturn : ∀ s, I s → ∃ s', turn s = .next s' ∧ I s') (h : I s) : Diverges turn s := by
  intro fuel
  induction fuel generalizing s with
  | zero => rfl
  | succ fuel ih =>
    obtain ⟨s', hs', h'⟩ := hturn s h
    rw [run_next hs']
    exact ih h'

/-! ## Checked loops -/

/-- The turn of a loop with accesses that can fail -/
def orFail : Except ε (Turn σ α) → Turn σ (Except ε α)
  | .ok (.next s) => .next s
  | .ok (.done a) => .done (.ok a)
  | .error e => .done (.error e)

/-- What comes after a checked loop -/
def andThen {β : Type} (x : Option (Except ε α)) (f : α → Option (Except ε β)) :
    Option (Except ε β) :=
  match x with
  | none => none
  | some (.error e) => some (.error e)
  | some (.ok a) => f a

@[simp] theorem andThen_ok {β : Type} (a : α) (f : α → Option (Except ε β)) :
    andThen (some (.ok a)) f = f a := rfl

variable {checked : σ → Except ε (Turn σ α)}

theorem Finishes.of_ok_done (h : checked s = .ok (.done a)) :
    Finishes (fun s => orFail (checked s)) s (.ok a) :=
  .of_done (congrArg orFail h)

theorem Finishes.of_ok_next {r : Except ε α} (hturn : checked s = .ok (.next s'))
    (h : Finishes (fun s => orFail (checked s)) s' r) :
    Finishes (fun s => orFail (checked s)) s r :=
  .of_next (congrArg orFail hturn) h

end Loop
