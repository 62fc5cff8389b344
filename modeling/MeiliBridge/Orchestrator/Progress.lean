import MeiliBridge.Lib.Fairness
import MeiliBridge.Orchestrator.DestinationProcessor

/-!
# What the destination processor gets done

`ServesInOrder` says in what order commands are served; that they are served at all needs a
processor that is scheduled. If its own steps are taken whenever they could be from some time on,
and nobody stops it, then every command that was sent is served (`eventually_served`), and a sender
that waits for room in the channel finds some again and again (`often_room`).
-/

set_option autoImplicit false

namespace MeiliBridge

open Interaction Trans Machine

namespace DestinationProcessor

/-- What the processor does of its own accord. -/
def OwnStep : Label → Prop
  | .connect _ | .serve => True
  | .send _ | .abort | .shutdown => False

variable {srv : SearchServer} {rt : Runtime} {a : MeilisearchAdapter} {initial : Documents}
  {s s' : State} {l : Label}

/-! ## What a step leaves -/

theorem Step.served_prefix (hs : Step srv rt a s l s') : s.served <+: s'.served := by
  cases hs with
  | connect | send | shutdown => exact List.prefix_rfl
  | serve | shutdownCommand | abort => exact List.prefix_append _ _

theorem Step.sent_prefix (hs : Step srv rt a s l s') : s.sent <+: s'.sent := by
  cases hs with
  | send => exact List.prefix_append _ _
  | connect | serve | shutdownCommand | abort | shutdown => exact List.prefix_rfl

/-- A processor that has stopped does nothing any more. -/
theorem Step.not_stopped (hs : Step srv rt a s l s') : s.phase ≠ .stopped := by
  cases hs with
  | connect h | serve h | shutdownCommand h | abort h =>
    rw [h]
    decide
  | send h | shutdown h => exact h

/-- A step that serves something makes room. -/
theorem Step.room (hs : Step srv rt a s l s') (hserved : s.served.length < s'.served.length)
    (hroom : s.queue.length ≤ capacity) : s'.queue.length < capacity := by
  cases hs with
  | connect | send | shutdown => exact absurd hserved (Nat.lt_irrefl _)
  | serve _ hqueue | shutdownCommand _ hqueue | abort _ hqueue =>
    rw [hqueue] at hroom
    exact hroom

/-- A command waits, while so many have been served. -/
structure Waits (phase : Phase) (served : Nat) (s : State) : Prop where
  phase : s.phase = phase
  queue : s.queue ≠ []
  served : s.served.length = served

/-- While a command waits for the connection, nothing else comes of a step but that it is there. -/
theorem Waits.connecting {k : Nat} (h : Waits .connecting k s) (hs : Step srv rt a s l s')
    (hgoes : s'.phase ≠ .stopped) :
    Waits .connecting k s' ∧ ¬ OwnStep l ∨ Waits .serving k s' := by
  obtain ⟨hphase, hqueue, hserved⟩ := h
  cases hs with
  | @connect connected _ =>
    cases connected with
    | true => exact .inr ⟨rfl, hqueue, hserved⟩
    | false => exact absurd rfl hgoes
  | send => exact .inl ⟨⟨hphase, by simp, hserved⟩, id⟩
  | serve h | shutdownCommand h | abort h =>
    rw [hphase] at h
    cases h
  | shutdown => exact absurd rfl hgoes

/-- While a command waits to be served, nothing else comes of a step but that one is served. -/
theorem Waits.serving {k : Nat} (h : Waits .serving k s) (hs : Step srv rt a s l s')
    (hgoes : s'.phase ≠ .stopped) :
    Waits .serving k s' ∧ ¬ OwnStep l ∨ k < s'.served.length := by
  obtain ⟨hphase, hqueue, hserved⟩ := h
  have hmore : ∀ e, k < (s.served ++ [e]).length := by
    intro e
    rw [List.length_append, hserved]
    exact Nat.lt_succ_self k
  cases hs with
  | connect h =>
    rw [hphase] at h
    cases h
  | send => exact .inl ⟨⟨hphase, by simp, hserved⟩, id⟩
  | serve | shutdownCommand | abort => exact .inr (hmore _)
  | shutdown => exact absurd rfl hgoes

/-! ## Endless runs -/

variable {ρ : (machine srv rt a initial).Run} {n : Nat}

/-- Once the processor is connected, a waiting command is the reason for the next serving. -/
theorem serves_next_serving (hfair : ρ.WeaklyFair OwnStep)
    (hgoes : ∀ m, n ≤ m → (ρ.state m).phase ≠ .stopped) {k : Nat}
    (h : Waits .serving k (ρ.state n)) : ∃ m, n ≤ m ∧ k < (ρ.state m).served.length := by
  refine hfair.leadsTo (P := Waits .serving k) (Q := fun s => k < s.served.length) (i := n)
    ?_ ?_ ?_ (Nat.le_refl n) h
  · intro m _ hwaits
    obtain ⟨s', hs'⟩ : ∃ s', Step srv rt a (ρ.state m) .serve s' :=
      exists_serve hwaits.phase hwaits.queue
    exact ⟨.serve, s', trivial, hs'⟩
  · intro m hm hwaits
    rcases ρ.next m with hsame | ⟨l, hs⟩
    · rw [hsame]
      exact .inl hwaits
    · exact (hwaits.serving hs (hgoes (m + 1) (Nat.le_succ_of_le hm))).imp_left And.left
  · rintro m hm hwaits ⟨l, hl, hs⟩
    rcases hwaits.serving hs (hgoes (m + 1) (Nat.le_succ_of_le hm)) with ⟨-, hnot⟩ | hmore
    · exact absurd hl hnot
    · exact hmore

theorem serves_next (hfair : ρ.WeaklyFair OwnStep)
    (hgoes : ∀ m, n ≤ m → (ρ.state m).phase ≠ .stopped) (hqueue : (ρ.state n).queue ≠ []) :
    ∃ m, n ≤ m ∧ (ρ.state n).served.length < (ρ.state m).served.length := by
  cases hphase : (ρ.state n).phase with
  | stopped => exact absurd hphase (hgoes n (Nat.le_refl n))
  | serving => exact serves_next_serving hfair hgoes ⟨hphase, hqueue, rfl⟩
  | connecting =>
    have hconnected : ∃ m, n ≤ m ∧ Waits .serving (ρ.state n).served.length (ρ.state m) := by
      refine hfair.leadsTo (P := Waits .connecting (ρ.state n).served.length) (i := n)
        ?_ ?_ ?_ (Nat.le_refl n) ⟨hphase, hqueue, rfl⟩
      · intro m _ hwaits
        exact ⟨.connect true, _, trivial, .connect hwaits.phase⟩
      · intro m hm hwaits
        rcases ρ.next m with hsame | ⟨l, hs⟩
        · rw [hsame]
          exact .inl hwaits
        · exact (hwaits.connecting hs (hgoes (m + 1) (Nat.le_succ_of_le hm))).imp_left And.left
      · rintro m hm hwaits ⟨l, hl, hs⟩
        rcases hwaits.connecting hs (hgoes (m + 1) (Nat.le_succ_of_le hm)) with ⟨-, hnot⟩ | hserving
        · exact absurd hl hnot
        · exact hserving
    obtain ⟨m, hnm, hwaits⟩ := hconnected
    obtain ⟨m', hm', hmore⟩ := serves_next_serving hfair
      (fun i hi => hgoes i (Nat.le_trans hnm hi)) hwaits
    exact ⟨m', Nat.le_trans hnm hm', hmore⟩

theorem sent_prefix_of_le {m : Nat} (hnm : n ≤ m) : (ρ.state n).sent <+: (ρ.state m).sent := by
  refine Run.lasts (P := fun s : State => (ρ.state n).sent <+: s.sent) (i := n) ?_
    (Nat.le_refl n) hnm List.prefix_rfl
  intro i _ hi
  rcases ρ.next i with hsame | ⟨l, hs⟩
  · rw [hsame]
    exact hi
  · exact hi.trans hs.sent_prefix

theorem served_prefix_of_le {m : Nat} (hnm : n ≤ m) :
    (ρ.state n).served <+: (ρ.state m).served := by
  refine Run.lasts (P := fun s : State => (ρ.state n).served <+: s.served) (i := n) ?_
    (Nat.le_refl n) hnm List.prefix_rfl
  intro i _ hi
  rcases ρ.next i with hsame | ⟨l, hs⟩
  · rw [hsame]
    exact hi
  · exact hi.trans hs.served_prefix

/-- A sender that waits for room finds it. -/
theorem often_room (hfair : ρ.WeaklyFair OwnStep)
    (hgoes : ∀ m, n ≤ m → (ρ.state m).phase ≠ .stopped) :
    ∃ m, n ≤ m ∧ (ρ.state m).queue.length < capacity := by
  by_cases hroom : (ρ.state n).queue.length < capacity
  · exact ⟨n, Nat.le_refl n, hroom⟩
  · have hqueue : (ρ.state n).queue ≠ [] := by
      intro hnil
      rw [hnil] at hroom
      exact hroom (Nat.zero_lt_succ _)
    obtain ⟨m, hnm, hmore⟩ := serves_next hfair hgoes hqueue
    obtain ⟨i, hi, hrise⟩ := Run.exists_rise (f := fun s : State => s.served.length) hnm hmore
    refine ⟨i + 1, Nat.le_succ_of_le hi, ?_⟩
    rcases ρ.next i with hsame | ⟨l, hs⟩
    · rw [hsame] at hrise
      exact absurd hrise (Nat.lt_irrefl _)
    · exact hs.room hrise (reachable_servesInOrder (ρ.reachable i)).room

/-- All that was sent by some time has been served by a later one. -/
theorem serves_all (hfair : ρ.WeaklyFair OwnStep)
    (hgoes : ∀ m, n ≤ m → (ρ.state m).phase ≠ .stopped) :
    ∃ m, n ≤ m ∧ (ρ.state n).sent <+: (ρ.state m).served.map Served.command := by
  have hserved : ∃ m, n ≤ m ∧ (ρ.state n).sent.length ≤ (ρ.state m).served.length := by
    refine Run.reaches (f := fun s : State => s.served.length) (i := n) ?_ (Nat.le_refl n)
    intro i hi hless
    refine serves_next hfair (fun m hm => hgoes m (Nat.le_trans hi hm)) ?_
    intro hnil
    have horder := (reachable_servesInOrder (ρ.reachable i)).order
    have hlength := (sent_prefix_of_le (ρ := ρ) hi).length_le
    rw [← horder, hnil, List.append_nil, List.length_map] at hlength
    exact absurd hless (Nat.not_lt_of_le hlength)
  obtain ⟨m, hnm, hlength⟩ := hserved
  refine ⟨m, hnm, ?_⟩
  have hprefix := sent_prefix_of_le (ρ := ρ) hnm
  rw [← (reachable_servesInOrder (ρ.reachable m)).order] at hprefix
  refine List.prefix_of_prefix_length_le hprefix (List.prefix_append _ _) ?_
  rw [List.length_map]
  exact hlength

theorem goes_before {m : Nat} (hnm : n ≤ m) (h : (ρ.state m).phase ≠ .stopped) :
    (ρ.state n).phase ≠ .stopped := by
  intro hstopped
  refine h (Run.lasts (P := fun s : State => s.phase = .stopped) (i := n) ?_ (Nat.le_refl n)
    hnm hstopped)
  intro i _ hi
  rcases ρ.next i with hsame | ⟨l, hs⟩
  · rw [hsame]
    exact hi
  · exact absurd hi hs.not_stopped

/-! ### The films get their index -/

def filmsEnsured : State where
  phase := .serving
  queue := []
  documents := noDocuments
  sent := [ensureFilms]
  served := [⟨ensureFilms, .response completed, noDocuments, noDocuments⟩]

/-- The command is in the channel. -/
def filmsSent : State where
  phase := .serving
  queue := [ensureFilms]
  documents := noDocuments
  sent := [ensureFilms]
  served := []

theorem reachable_filmsSent :
    (machine idServer ⟨id, id, ""⟩ idAdapter noDocuments).Reachable filmsSent := by
  have h₀ : (machine idServer ⟨id, id, ""⟩ idAdapter noDocuments).Reachable
      ⟨.connecting, [], noDocuments, [], []⟩ := .init rfl
  have h₁ := h₀.step (l := Label.connect true) (.connect rfl)
  exact h₁.step (l := Label.send ensureFilms) (.send nofun (Nat.zero_lt_succ _))

theorem filmsSent_serve : (machine idServer ⟨id, id, ""⟩ idAdapter noDocuments).step filmsSent
    .serve filmsEnsured := by
  have hserve : DestinationProcessor.serve ⟨id, id, ""⟩ idAdapter 10 true ensureFilms = some _ :=
    rfl
  exact .serve (r := .ok completed) rfl rfl hserve ⟨.succeeds, trivial, rfl, rfl⟩

/-- There is nothing left to do. -/
theorem filmsEnsured_rests :
    ¬ (machine idServer ⟨id, id, ""⟩ idAdapter noDocuments).Enabled OwnStep filmsEnsured := by
  rintro ⟨l, s', hl, hs⟩
  cases hs with
  | connect h => cases h
  | serve _ hqueue | shutdownCommand _ hqueue => cases hqueue
  | send | abort | shutdown => exact hl

/-- **Every command that is sent is served**, if the processor is scheduled and nobody stops it. -/
theorem eventually_served (srv : SearchServer) (rt : Runtime) (a : MeilisearchAdapter)
    (initial : Documents) (ρ : (machine srv rt a initial).Run) (hfair : ρ.WeaklyFair OwnStep)
    (hgoes : ∀ m, (ρ.state m).phase ≠ .stopped) (n : Nat) :
    ∃ m, n ≤ m ∧ (ρ.state n).sent <+: (ρ.state m).served.map Served.command :=
  serves_all hfair fun m _ => hgoes m

/-- The command is in the channel at some time, and is served later. -/
theorem eventually_served_films :
    ∃ (ρ : (machine idServer ⟨id, id, ""⟩ idAdapter noDocuments).Run) (n m : Nat),
      ρ.state n = filmsSent ∧ n ≤ m ∧
        filmsSent.sent <+: (ρ.state m).served.map Served.command := by
  obtain ⟨ρ₀, n, hsent⟩ := Run.exists_rest reachable_filmsSent
  obtain ⟨ρ, hbefore, hrest⟩ := Run.exists_step_rest hsent filmsSent_serve
  have hn : ρ.state n = filmsSent := (hbefore n (Nat.le_refl n)).trans (hsent n (Nat.le_refl n))
  have hgoes : ∀ m, (ρ.state m).phase ≠ .stopped := by
    intro m
    refine goes_before (Nat.le_max_right (n + 1) m) ?_
    rw [hrest _ (Nat.le_max_left (n + 1) m)]
    decide
  obtain ⟨m, hm, hserved⟩ := eventually_served idServer ⟨id, id, ""⟩ idAdapter noDocuments ρ
    (Run.weaklyFair_of_rest hrest filmsEnsured_rests) hgoes n
  rw [hn] at hserved
  exact ⟨ρ, n, m, hn, hm, hserved⟩

end DestinationProcessor

end MeiliBridge
