import Mathlib.Logic.Basic

/-!
# Programs over operations, and the runs of a program

`Prog Op Ans ε α` is a program that asks its surroundings to perform operations `o : Op`, gets an
answer in `Ans o` for each, and ends with a value or an error in `ε`. An error ends the rest of
the program, so `←` is the propagation operator of a language with checked errors; `attempt`
reads a result instead of propagating it.

A `Handler` says what one operation does to the world, given what the environment decides in that
step (a choice `c : C`). Two relations follow:

* `Runs h P p w r w'`: some complete run of `p` from `w`, all of whose choices meet `P`, ends
  with the result `r` in the world `w'`.
* `Visits h P p w w'`: some such run has `w'` as an intermediate world. This is where a crash can
  leave the world: between any two operations.

`wp` speaks about both at once: `wp_iff` says that it is sound and complete, `wp_bind` is the rule
of sequencing, and `wp_only` carries what the operations of a program preserve over all its runs.
`run` executes a program on a list of choices, so that a concrete run can be computed.
-/

set_option autoImplicit false

namespace Interaction

/-- A program over operations `Op` with answers `Ans`. -/
inductive Prog (Op : Type) (Ans : Op → Type) (ε α : Type) : Type where
  | done (r : Except ε α)
  | act (o : Op) (k : Ans o → Prog Op Ans ε α)

namespace Prog

variable {Op : Type} {Ans : Op → Type} {ε α β : Type}

def bind : Prog Op Ans ε α → (α → Prog Op Ans ε β) → Prog Op Ans ε β
  | .done (.ok a), f => f a
  | .done (.error e), _ => .done (.error e)
  | .act o k, f => .act o fun x => (k x).bind f

instance : Monad (Prog Op Ans ε) where
  pure a := .done (.ok a)
  bind := bind

/-- End with an error. -/
def fail (e : ε) : Prog Op Ans ε α := .done (.error e)

/-- Perform an operation and return its answer. -/
def perform (o : Op) : Prog Op Ans ε (Ans o) := .act o fun x => .done (.ok x)

/-- Go on with a result: its value, or its error. -/
def lift (r : Except ε α) : Prog Op Ans ε α := .done r

/-- The result of a program as a value. -/
def attempt : Prog Op Ans ε α → Prog Op Ans ε (Except ε α)
  | .done r => .done (.ok r)
  | .act o k => .act o fun x => (k x).attempt

@[simp] theorem pure_eq (a : α) : (pure a : Prog Op Ans ε α) = .done (.ok a) := rfl

@[simp] theorem bind_eq (p : Prog Op Ans ε α) (f : α → Prog Op Ans ε β) :
    (p >>= f) = p.bind f := rfl

theorem bind_pure : ∀ p : Prog Op Ans ε α, p.bind pure = p
  | .done (.ok _) => rfl
  | .done (.error _) => rfl
  | .act o k => by
    simp only [bind]
    congr 1
    funext x
    exact bind_pure (k x)

theorem bind_assoc {γ : Type} (f : α → Prog Op Ans ε β) (g : β → Prog Op Ans ε γ) :
    ∀ p : Prog Op Ans ε α, (p.bind f).bind g = p.bind fun a => (f a).bind g
  | .done (.ok _) => rfl
  | .done (.error _) => rfl
  | .act o k => by
    simp only [bind]
    congr 1
    funext x
    exact bind_assoc f g (k x)

end Prog

/-- What an operation does to the world when the environment decides `c`. -/
structure Handler (Op : Type) (Ans : Op → Type) (C W : Type) where
  exec : (o : Op) → C → W → Ans o × W

variable {Op : Type} {Ans : Op → Type} {ε α β C W : Type}

/-- The same operations in a world that others change as well: the environment also decides what
they do after each operation. -/
def Handler.shared (h : Handler Op Ans C W) : Handler Op Ans (C × (W → W)) W where
  exec o c w := ((h.exec o c.1 w).1, c.2 (h.exec o c.1 w).2)

/-- `p` can run from `w` to the end, with result `r` in the world `w'`. -/
def Runs (h : Handler Op Ans C W) (P : C → Prop) :
    Prog Op Ans ε α → W → Except ε α → W → Prop
  | .done r₀, w, r, w' => r = r₀ ∧ w' = w
  | .act o k, w, r, w' =>
      ∃ c, P c ∧ Runs h P (k (h.exec o c w).1) (h.exec o c w).2 r w'

/-- `p`, run from `w`, can have the world `w'` before, between or after its operations. -/
def Visits (h : Handler Op Ans C W) (P : C → Prop) : Prog Op Ans ε α → W → W → Prop
  | .done _, w, w' => w' = w
  | .act o k, w, w' =>
      w' = w ∨ ∃ c, P c ∧ Visits h P (k (h.exec o c w).1) (h.exec o c w).2 w'

/-- Execute a program on the choices given, if there are enough of them. -/
def run (h : Handler Op Ans C W) : List C → Prog Op Ans ε α → W → Option (Except ε α × W)
  | _, .done r, w => some (r, w)
  | [], .act _ _, _ => none
  | c :: cs, .act o k, w => run h cs (k (h.exec o c w).1) (h.exec o c w).2

/-- Execute a program in an environment that chooses `c` at every operation. -/
def eval (h : Handler Op Ans C W) (c : C) : Prog Op Ans ε α → W → Except ε α × W
  | .done r, w => (r, w)
  | .act o k, w => eval h c (k (h.exec o c w).1) (h.exec o c w).2

/-- The world after `n` operations in an environment that chooses `c`, or at the end. -/
def worldAfter (h : Handler Op Ans C W) (c : C) : Nat → Prog Op Ans ε α → W → W
  | 0, _, w | _, .done _, w => w
  | n + 1, .act o k, w => worldAfter h c n (k (h.exec o c w).1) (h.exec o c w).2

/-- Some answers lead the program to the operation `o`. -/
def Prog.Issues (o : Op) : Prog Op Ans ε α → Prop
  | .done _ => False
  | .act o' k => o' = o ∨ ∃ x, (k x).Issues o

/-- Whatever the answers, the program performs operations of `S` only. -/
def Prog.Only (S : Op → Prop) : Prog Op Ans ε α → Prop
  | .done _ => True
  | .act o k => S o ∧ ∀ x, (k x).Only S

section Only

variable {S : Op → Prop}

@[simp] theorem Prog.only_lift {r : Except ε α} : (.lift r : Prog Op Ans ε α).Only S := trivial

@[simp] theorem Prog.only_perform {o : Op} : (.perform o : Prog Op Ans ε (Ans o)).Only S ↔ S o :=
  ⟨fun h => h.1, fun h => ⟨h, fun _ => trivial⟩⟩

theorem Prog.only_bind {f : α → Prog Op Ans ε β} (hf : ∀ a, (f a).Only S) :
    ∀ {p : Prog Op Ans ε α}, p.Only S → (p.bind f).Only S
  | .done (.ok a), _ => hf a
  | .done (.error _), _ => trivial
  | .act _ _, hp => ⟨hp.1, fun x => Prog.only_bind hf (hp.2 x)⟩

theorem Prog.Only.mono {T : Op → Prop} (hST : ∀ o, S o → T o) :
    ∀ {p : Prog Op Ans ε α}, p.Only S → p.Only T
  | .done _, _ => trivial
  | .act o _, hp => ⟨hST o hp.1, fun x => Prog.Only.mono hST (hp.2 x)⟩

theorem Prog.only_ite {c : Prop} [Decidable c] {p q : Prog Op Ans ε α} (hp : p.Only S)
    (hq : q.Only S) : (if c then p else q).Only S := by
  split
  · exact hp
  · exact hq

theorem Prog.only_attempt : ∀ {p : Prog Op Ans ε α}, p.Only S → p.attempt.Only S
  | .done _, _ => trivial
  | .act _ _, hp => ⟨hp.1, fun x => Prog.only_attempt (hp.2 x)⟩

end Only

/-! ## Runs of composed programs -/

section Runs

variable {h : Handler Op Ans C W} {P : C → Prop}

/-- Every program ends, whatever the environment chooses. -/
theorem exists_runs (hP : ∃ c, P c) : ∀ (p : Prog Op Ans ε α) (w : W), ∃ r w', Runs h P p w r w'
  | .done r, w => ⟨r, w, rfl, rfl⟩
  | .act o k, w => by
    obtain ⟨c, hc⟩ := hP
    obtain ⟨r, w', hr⟩ := exists_runs ⟨c, hc⟩ (k (h.exec o c w).1) (h.exec o c w).2
    exact ⟨r, w', c, hc, hr⟩

theorem runs_of_run {r : Except ε α} {w' : W} :
    ∀ {cs : List C} {p : Prog Op Ans ε α} {w : W}, (∀ c ∈ cs, P c) →
      run h cs p w = some (r, w') → Runs h P p w r w'
  | _, .done r₀, w, _, hr => by
    rw [run] at hr
    simp only [Option.some.injEq, Prod.mk.injEq] at hr
    exact ⟨hr.1.symm, hr.2.symm⟩
  | [], .act o k, w, _, hr => by simp [run] at hr
  | c :: cs, .act o k, w, hP, hr => by
    rw [run] at hr
    exact ⟨c, hP c List.mem_cons_self,
      runs_of_run (fun c' hc' => hP c' (List.mem_cons_of_mem _ hc')) hr⟩

theorem runs_eval {c : C} (hc : P c) : ∀ (p : Prog Op Ans ε α) (w : W),
    Runs h P p w (eval h c p w).1 (eval h c p w).2
  | .done _, _ => ⟨rfl, rfl⟩
  | .act o k, w => ⟨c, hc, runs_eval hc (k (h.exec o c w).1) (h.exec o c w).2⟩

theorem runs_of_eval {c : C} (hc : P c) {p : Prog Op Ans ε α} {w w' : W} {r : Except ε α}
    (hr : eval h c p w = (r, w')) : Runs h P p w r w' := by
  have hruns := runs_eval (h := h) hc p w
  rwa [hr] at hruns

/-- An environment with more choices has these runs too. -/
theorem Runs.mono {P' : C → Prop} (hP : ∀ c, P c → P' c) {r : Except ε α} {w' : W} :
    ∀ {p : Prog Op Ans ε α} {w : W}, Runs h P p w r w' → Runs h P' p w r w'
  | .done _, _, hr => hr
  | .act _ _, _, hr => by
    obtain ⟨c, hc, hrest⟩ := hr
    exact ⟨c, hP c hc, Runs.mono hP hrest⟩

theorem eval_bind (c : C) (f : α → Prog Op Ans ε β) : ∀ (p : Prog Op Ans ε α) (w : W),
    eval h c (p.bind f) w =
      match eval h c p w with
      | (.ok a, w₁) => eval h c (f a) w₁
      | (.error e, w₁) => (.error e, w₁)
  | .done (.ok _), _ => rfl
  | .done (.error _), _ => rfl
  | .act o k, w => eval_bind c f (k (h.exec o c w).1) (h.exec o c w).2

end Runs

/-! ## The worlds a run goes through -/

section Visits

variable {h : Handler Op Ans C W} {P : C → Prop}

theorem visits_start {w : W} : ∀ (p : Prog Op Ans ε α), Visits h P p w w
  | .done _ => rfl
  | .act _ _ => Or.inl rfl

theorem visits_worldAfter {c : C} (hc : P c) :
    ∀ (n : Nat) (p : Prog Op Ans ε α) (w : W), Visits h P p w (worldAfter h c n p w)
  | 0, p, _ => visits_start p
  | _ + 1, .done _, _ => rfl
  | n + 1, .act o k, w =>
    Or.inr ⟨c, hc, visits_worldAfter hc n (k (h.exec o c w).1) (h.exec o c w).2⟩

end Visits

/-! ## Weakest preconditions -/

/-- Whatever the environment chooses, the run of `p` from `w` meets `I` at every point and ends in
`Q`. -/
def wp (h : Handler Op Ans C W) (P : C → Prop) (I : W → Prop) :
    Prog Op Ans ε α → (Except ε α → W → Prop) → W → Prop
  | .done r, Q, w => I w ∧ Q r w
  | .act o k, Q, w => I w ∧ ∀ c, P c → wp h P I (k (h.exec o c w).1) Q (h.exec o c w).2

section Wp

variable {h : Handler Op Ans C W} {P : C → Prop} {I : W → Prop}

theorem wp_start {Q : Except ε α → W → Prop} {w : W} :
    ∀ {p : Prog Op Ans ε α}, wp h P I p Q w → I w
  | .done _, hp => hp.1
  | .act _ _, hp => hp.1

theorem wp.mono {I' : W → Prop} {Q Q' : Except ε α → W → Prop} (hI : ∀ w, I w → I' w)
    (hQ : ∀ r w, I w → Q r w → Q' r w) :
    ∀ {p : Prog Op Ans ε α} {w : W}, wp h P I p Q w → wp h P I' p Q' w
  | .done _, _, hp => ⟨hI _ hp.1, hQ _ _ hp.1 hp.2⟩
  | .act _ _, _, hp => ⟨hI _ hp.1, fun c hc => wp.mono hI hQ (hp.2 c hc)⟩

@[simp] theorem wp_done {r : Except ε α} {Q : Except ε α → W → Prop} {w : W} :
    wp h P I (.done r) Q w ↔ I w ∧ Q r w := Iff.rfl

@[simp] theorem wp_fail {e : ε} {Q : Except ε α → W → Prop} {w : W} :
    wp h P I (.fail e) Q w ↔ I w ∧ Q (.error e) w := Iff.rfl

/-- What is asked before a sequence: the first part ends where the second one may start. -/
theorem wp_bind {f : α → Prog Op Ans ε β} {Q : Except ε β → W → Prop} :
    ∀ {p : Prog Op Ans ε α} {w : W}, wp h P I (p.bind f) Q w ↔
      wp h P I p (fun r w₁ =>
        match r with
        | .ok a => wp h P I (f a) Q w₁
        | .error e => Q (.error e) w₁) w
  | .done (.ok _), _ => ⟨fun hp => ⟨wp_start hp, hp⟩, fun hp => hp.2⟩
  | .done (.error _), _ => Iff.rfl
  | .act _ _, _ => and_congr_right fun _ => forall_congr' fun _ => forall_congr' fun _ => wp_bind

/-- The rule of sequencing: `R` holds between the parts. -/
theorem wp.bind {f : α → Prog Op Ans ε β} {p : Prog Op Ans ε α} {R : Except ε α → W → Prop}
    {Q : Except ε β → W → Prop} {w : W} (hp : wp h P I p R w)
    (hok : ∀ a w₁, I w₁ → R (.ok a) w₁ → wp h P I (f a) Q w₁)
    (herr : ∀ e w₁, I w₁ → R (.error e) w₁ → Q (.error e) w₁) : wp h P I (p.bind f) Q w := by
  refine wp_bind.mpr (hp.mono (fun _ hw => hw) fun r w₁ hw hr => ?_)
  cases r with
  | ok a => exact hok a w₁ hw hr
  | error e => exact herr e w₁ hw hr

theorem wp_attempt {Q : Except ε (Except ε α) → W → Prop} :
    ∀ {p : Prog Op Ans ε α} {w : W},
      wp h P I p.attempt Q w ↔ wp h P I p (fun r w₁ => Q (.ok r) w₁) w
  | .done _, _ => Iff.rfl
  | .act _ _, _ => and_congr_right fun _ => forall_congr' fun _ => forall_congr' fun _ => wp_attempt

/-- **Soundness and completeness of `wp`** for the points and the ends of runs. -/
theorem wp_iff {Q : Except ε α → W → Prop} :
    ∀ {p : Prog Op Ans ε α} {w : W}, wp h P I p Q w ↔
      (∀ w', Visits h P p w w' → I w') ∧ ∀ r w', Runs h P p w r w' → Q r w'
  | .done r, w => by simp [Visits, Runs]
  | .act o k, w => by
    simp only [wp, Visits, Runs, wp_iff]
    constructor
    · rintro ⟨hw, hk⟩
      refine ⟨?_, ?_⟩
      · rintro w' (rfl | ⟨c, hc, hv⟩)
        · exact hw
        · exact (hk c hc).1 w' hv
      · rintro r w' ⟨c, hc, hr⟩
        exact (hk c hc).2 r w' hr
    · rintro ⟨hv, hr⟩
      exact ⟨hv w (Or.inl rfl), fun c hc =>
        ⟨fun w' h' => hv w' (Or.inr ⟨c, hc, h'⟩), fun r w' h' => hr r w' ⟨c, hc, h'⟩⟩⟩

theorem wp_true : ∀ (p : Prog Op Ans ε α) (w : W), wp h P (fun _ => True) p (fun _ _ => True) w
  | .done _, _ => ⟨trivial, trivial⟩
  | .act o k, w => ⟨trivial, fun c _ => wp_true (k (h.exec o c w).1) (h.exec o c w).2⟩

/-- What the operations of a program preserve holds at every point of its runs. -/
theorem wp_only {S : Op → Prop} (hI : ∀ o c w, S o → P c → I w → I (h.exec o c w).2) :
    ∀ {p : Prog Op Ans ε α} {w : W}, p.Only S → I w → wp h P I p (fun _ w' => I w') w
  | .done _, _, _, hw => ⟨hw, hw⟩
  | .act o _, w, hp, hw =>
    ⟨hw, fun c hc => wp_only hI (hp.2 _) (hI o c w hp.1 hc hw)⟩

/-- What every operation preserves needs no other reason. -/
theorem wp_invariant (hI : ∀ o c w, P c → I w → I (h.exec o c w).2) :
    ∀ (p : Prog Op Ans ε α) {w : W}, I w → wp h P I p (fun _ w' => I w') w
  | .done _, _, hw => ⟨hw, hw⟩
  | .act o _, w, hw => ⟨hw, fun c hc => wp_invariant hI _ (hI o c w hc hw)⟩

theorem wp.and {I' : W → Prop} {Q Q' : Except ε α → W → Prop} :
    ∀ {p : Prog Op Ans ε α} {w : W}, wp h P I p Q w → wp h P I' p Q' w →
      wp h P (fun v => I v ∧ I' v) p (fun r v => Q r v ∧ Q' r v) w
  | .done _, _, hp, hp' => ⟨⟨hp.1, hp'.1⟩, hp.2, hp'.2⟩
  | .act _ _, _, hp, hp' =>
    ⟨⟨hp.1, hp'.1⟩, fun c hc => wp.and (hp.2 c hc) (hp'.2 c hc)⟩

end Wp

/-! ## Two worlds -/

section Transport

variable {C' W' : Type} {h : Handler Op Ans C W} {h' : Handler Op Ans C' W'} {P : C → Prop}
  {P' : C' → Prop} {S : Op → Prop} {R : W → W' → Prop}

/-- A relation between two worlds is kept by the operations of `S`, which answer alike in both. -/
def Simulates (h : Handler Op Ans C W) (P : C → Prop) (h' : Handler Op Ans C' W') (P' : C' → Prop)
    (S : Op → Prop) (R : W → W' → Prop) : Prop :=
  ∀ o c w v, S o → P c → R w v → ∃ c', P' c' ∧
    (h'.exec o c' v).1 = (h.exec o c w).1 ∧ R (h.exec o c w).2 (h'.exec o c' v).2

/-- A run in one world is a run in the other. -/
theorem Runs.transport (hR : Simulates h P h' P' S R) {r : Except ε α} {w' : W} :
    ∀ {p : Prog Op Ans ε α} {w : W} {v : W'}, p.Only S → R w v → Runs h P p w r w' →
      ∃ v', Runs h' P' p v r v' ∧ R w' v'
  | .done _, _, v, _, hwv, hruns => by
    obtain ⟨rfl, rfl⟩ := hruns
    exact ⟨v, ⟨rfl, rfl⟩, hwv⟩
  | .act o k, w, v, hp, hwv, hruns => by
    obtain ⟨c, hc, hrest⟩ := hruns
    obtain ⟨c', hc', hanswer, hnext⟩ := hR o c w v hp.1 hc hwv
    obtain ⟨v', hv', hwv'⟩ := Runs.transport hR (hp.2 _) hnext hrest
    refine ⟨v', ⟨c', hc', ?_⟩, hwv'⟩
    rw [hanswer]
    exact hv'

theorem Visits.transport (hR : Simulates h P h' P' S R) {w' : W} :
    ∀ {p : Prog Op Ans ε α} {w : W} {v : W'}, p.Only S → R w v → Visits h P p w w' →
      ∃ v', Visits h' P' p v v' ∧ R w' v'
  | .done _, _, v, _, hwv, hvisits => by
    obtain rfl := hvisits
    exact ⟨v, rfl, hwv⟩
  | .act o k, w, v, hp, hwv, hvisits => by
    rcases hvisits with rfl | ⟨c, hc, hrest⟩
    · exact ⟨v, .inl rfl, hwv⟩
    · obtain ⟨c', hc', hanswer, hnext⟩ := hR o c w v hp.1 hc hwv
      obtain ⟨v', hv', hwv'⟩ := Visits.transport hR (hp.2 _) hnext hrest
      refine ⟨v', .inr ⟨c', hc', ?_⟩, hwv'⟩
      rw [hanswer]
      exact hv'

end Transport

end Interaction
