import MeiliBridge.Pipeline.ParallelMoves

/-!
# The order of parallel processing

Two events of one row leave the workers in the order in which they came only if they never are in
two places at once. `InOrder` is that invariant, for one row: the row's events in flight are all at
one place of the system, of one worker at most, and their numbers, read from the destination back
to the queue, increase. A step keeps it unless it starts a race (`Races`).
-/

set_option autoImplicit false

namespace MeiliBridge

namespace Parallel

section Order

variable {ρ : Type} [DecidableEq ρ] (row : Event → ρ)

/-- The numbers of the events of row `r` in a list. -/
def seqs (r : ρ) (xs : List Tagged) : List Nat := (xs.filter (row ·.source = r)).map (·.seq)

/-- The events of the row reach the destination in the order of their numbers. -/
def Ordered (s : System) : Prop :=
  s.delivered.Pairwise fun x y => row x.source = row y.source → x.seq < y.seq

/-- What `balance_work` has in its hands, seen as a processor with nothing but a queue. -/
def inHand : Balance → Processor
  | .moving _ stolen => ⟨stolen, 0, fun _ => .idle, []⟩
  | _ => ⟨[], 0, fun _ => .idle, []⟩

/-- The places where events wait: the table processors, and the hands of the balancer. -/
def System.at (s : System) : Option Nat → Processor
  | some table => s.processors table
  | none => inHand s.balance

/-- No event of the row is there. -/
def Free (r : ρ) (p : Processor) : Prop :=
  seqs row r p.queue = [] ∧ seqs row r p.results.flatten = [] ∧
    ∀ i, seqs row r (p.workers i).held = []

/-- The row's events at a place, those of worker `i` between the results and the queue. -/
def line (r : ρ) (p : Processor) (i : Nat) : List Nat :=
  seqs row r p.results.flatten ++ seqs row r (p.workers i).held ++ seqs row r p.queue

/-- The row's events in flight are in one line, and in order behind those delivered. -/
def InOrder (r : ρ) (s : System) : Prop :=
  ∃ place i, (∀ other, other ≠ place → Free row r (s.at other)) ∧
    (∀ j, j ≠ i → seqs row r ((s.at place).workers j).held = []) ∧
    (seqs row r s.delivered ++ line row r (s.at place) i ++ [s.nextSeq]).Pairwise (· < ·)

/-- The step brings no event of a row to a second place while another event of the row is in
flight: enqueued events join the others of their row at their table, a worker drains no event of a
row another worker holds, and balancing moves an event only if no other of its row is in flight. -/
def RaceFree (s : System) : Label → Prop
  | .enqueue table events =>
    ∀ e ∈ events, ∀ other, other ≠ some table → Free row (row e) (s.at other)
  | .drain table worker =>
    ∀ x ∈ (s.processors table).drained, ∀ j, j ≠ worker →
      seqs row (row x.source) ((s.processors table).workers j).held = []
  | .steal =>
    ∀ sizes small large count, s.balance = .surveying sizes →
      plan sizes = some (small, large, count) →
      ∀ x ∈ (s.processors large).stolen count, ∀ place i,
        line row (row x.source) (s.at place) i ⊆ [x.seq]
  | _ => True

/-! ## Numbers of a row -/

variable {row}

@[simp] theorem seqs_nil (r : ρ) : seqs row r [] = [] := rfl

@[simp] theorem seqs_append (r : ρ) (xs ys : List Tagged) :
    seqs row r (xs ++ ys) = seqs row r xs ++ seqs row r ys := by
  simp [seqs]

theorem seqs_eq_nil_iff {r : ρ} {xs : List Tagged} :
    seqs row r xs = [] ↔ ∀ x ∈ xs, row x.source ≠ r := by
  simp [seqs]

theorem exists_of_seqs_ne_nil {r : ρ} {xs : List Tagged} (h : seqs row r xs ≠ []) :
    ∃ x ∈ xs, row x.source = r := by
  by_contra hno
  exact h (seqs_eq_nil_iff.mpr fun x hx hr => hno ⟨x, hx, hr⟩)

theorem mem_seqs {r : ρ} {xs : List Tagged} {n : Nat} :
    n ∈ seqs row r xs ↔ ∃ x ∈ xs, row x.source = r ∧ x.seq = n := by
  simp [seqs, and_assoc]

theorem seqs_cons (r : ρ) (x : Tagged) (xs : List Tagged) :
    seqs row r (x :: xs) = if row x.source = r then x.seq :: seqs row r xs else seqs row r xs := by
  by_cases h : row x.source = r <;> simp [seqs, h]

theorem processBatch_sublist {rt : Runtime} {st : Stages} (r : ρ) :
    ∀ {xs ys : List Tagged}, processBatch rt st xs = some ys →
      (seqs row r ys).Sublist (seqs row r xs)
  | [], ys, h => by
    cases h
    exact List.Sublist.refl _
  | x :: xs, ys, h => by
    have hskip : (seqs row r xs).Sublist (seqs row r (x :: xs)) := by
      rw [seqs_cons]
      split
      · exact List.sublist_cons_self _ _
      · exact List.Sublist.refl _
    unfold processBatch at h
    split at h
    · obtain ⟨ys, hys, rfl⟩ := Option.map_eq_some_iff.mp h
      have ih := processBatch_sublist r hys
      simp only [seqs_cons]
      split
      · exact ih.cons_cons _
      · exact ih
    · exact (processBatch_sublist r h).trans hskip
    · exact (processBatch_sublist r h).trans hskip
    · cases h

theorem seqs_tag_sublist (r : ρ) (n : Nat) (events : List Event) :
    (seqs row r (tag n events)).Sublist (List.range' n events.length) := by
  have hmap : (tag n events).map (·.seq) = List.range' n events.length := by
    simp [tag, Function.comp_def]
  rw [← hmap]
  exact List.filter_sublist.map _

theorem pairwise_lt_append_range' {l m : List Nat} {n k : Nat}
    (h : (l ++ [n]).Pairwise (· < ·)) (hm : m.Sublist (List.range' n k)) :
    (l ++ m ++ [n + k]).Pairwise (· < ·) := by
  have hrange : (l ++ List.range' n (k + 1)).Pairwise (· < ·) := by
    obtain ⟨hl, -, hlt⟩ := List.pairwise_append.mp h
    refine List.pairwise_append.mpr ⟨hl, List.pairwise_lt_range', fun x hx y hy => ?_⟩
    have hxn := hlt x hx n (by simp)
    have hny := (List.mem_range'_1.mp hy).1
    omega
  rw [List.range'_1_concat] at hrange
  refine List.Pairwise.sublist ?_ hrange
  rw [List.append_assoc]
  exact (List.Sublist.refl l).append (hm.append (List.Sublist.refl _))

/-! ## Places -/

theorem Free.line {r : ρ} {p : Processor} (h : Free row r p) (i : Nat) :
    Parallel.line row r p i = [] := by
  simp [Parallel.line, h.1, h.2.1, h.2.2 i]

theorem System.at_setProcessor (s : System) (table : Nat) (p : Processor) :
    (s.setProcessor table p).at = Function.update s.at (some table) p := by
  funext place
  cases place with
  | none => rfl
  | some t =>
    by_cases h : t = table
    · subst h
      simp [System.at, System.setProcessor]
    · simp [System.at, System.setProcessor, h]

theorem held_setWorker (p : Processor) (worker : Nat) (w : Worker) (j : Nat) :
    ((System.setWorker p worker w).workers j).held =
      if j = worker then w.held else (p.workers j).held := by
  by_cases h : j = worker
  · subst h
    simp [System.setWorker]
  · simp [System.setWorker, h]

/-- A step that changes one place keeps the row in order if there the row's events are a part of
what they were, up to those delivered. -/
theorem InOrder.local {r : ρ} {s s' : System} {place : Option Nat} {p' : Processor}
    (h : InOrder row r s) (hat : s'.at = Function.update s.at place p')
    (hnext : s'.nextSeq = s.nextSeq)
    (hfree : Free row r (s.at place) →
      Free row r p' ∧ seqs row r s'.delivered = seqs row r s.delivered)
    (hline : ∀ i, (∀ j, j ≠ i → seqs row r ((s.at place).workers j).held = []) →
      ∃ i', (∀ j, j ≠ i' → seqs row r (p'.workers j).held = []) ∧
        (seqs row r s'.delivered ++ line row r p' i').Sublist
          (seqs row r s.delivered ++ line row r (s.at place) i)) :
    InOrder row r s' := by
  obtain ⟨q, i, hother, hworker, hsorted⟩ := h
  by_cases hq : q = place
  -- the row is in flight at the place that changes
  · subst hq
    obtain ⟨i', hworker', hsub⟩ := hline i hworker
    refine ⟨q, i', fun other ho => ?_, ?_, ?_⟩
    · rw [hat, Function.update_of_ne ho]
      exact hother other ho
    · simpa [hat] using hworker'
    · rw [hat, Function.update_self, hnext]
      exact hsorted.sublist (hsub.append (List.Sublist.refl _))
  -- it is in flight elsewhere, and the changed place stays free of it
  · obtain ⟨hfree', hdelivered⟩ := hfree (hother place (Ne.symm hq))
    refine ⟨q, i, fun other ho => ?_, ?_, ?_⟩
    · by_cases hp : other = place
      · subst hp
        simpa [hat] using hfree'
      · rw [hat, Function.update_of_ne hp]
        exact hother other ho
    · rwa [hat, Function.update_of_ne hq]
    · rwa [hat, Function.update_of_ne hq, hnext, hdelivered]

/-- A row that is nowhere else is in line at this place. -/
theorem InOrder.at_place {r : ρ} {s : System} {place : Option Nat} (h : InOrder row r s)
    (hother : ∀ other, other ≠ place → Free row r (s.at other)) :
    ∃ i, (∀ j, j ≠ i → seqs row r ((s.at place).workers j).held = []) ∧
      (seqs row r s.delivered ++ line row r (s.at place) i ++ [s.nextSeq]).Pairwise (· < ·) := by
  obtain ⟨q, i, ho, hworker, hsorted⟩ := h
  by_cases hq : q = place
  · subst hq
    exact ⟨i, hworker, hsorted⟩
  · have hplace := ho place (Ne.symm hq)
    refine ⟨i, fun j _ => hplace.2.2 j, ?_⟩
    rw [(hother q hq).line] at hsorted
    rwa [hplace.line]

/-- Two places that look the same to the row. -/
structure SameRow (row : Event → ρ) (r : ρ) (p p' : Processor) : Prop where
  queue : seqs row r p'.queue = seqs row r p.queue
  results : seqs row r p'.results.flatten = seqs row r p.results.flatten
  held : ∀ i, seqs row r (p'.workers i).held = seqs row r (p.workers i).held

theorem SameRow.refl (r : ρ) (p : Processor) : SameRow row r p p := ⟨rfl, rfl, fun _ => rfl⟩

theorem SameRow.free {r : ρ} {p p' : Processor} (h : SameRow row r p p') (hf : Free row r p) :
    Free row r p' :=
  ⟨h.queue.trans hf.1, h.results.trans hf.2.1, fun i => (h.held i).trans (hf.2.2 i)⟩

theorem SameRow.line {r : ρ} {p p' : Processor} (h : SameRow row r p p') (i : Nat) :
    Parallel.line row r p' i = Parallel.line row r p i := by
  simp [Parallel.line, h.queue, h.results, h.held i]

/-- A row that sees no difference stays in order. -/
theorem InOrder.same {r : ρ} {s s' : System} (h : InOrder row r s)
    (hsame : ∀ place, SameRow row r (s.at place) (s'.at place))
    (hdelivered : s'.delivered = s.delivered) (hnext : s.nextSeq ≤ s'.nextSeq) :
    InOrder row r s' := by
  obtain ⟨q, i, hother, hworker, hsorted⟩ := h
  refine ⟨q, i, fun other ho => (hsame other).free (hother other ho),
    fun j hj => ((hsame q).held j).trans (hworker j hj), ?_⟩
  have hlast := pairwise_lt_append_range' hsorted
    (List.nil_sublist (List.range' s.nextSeq (s'.nextSeq - s.nextSeq)))
  rw [hdelivered, (hsame q).line]
  simpa [Nat.add_sub_cancel' hnext] using hlast

/-! ## What each step does to the order -/

variable {cfg : ParallelConfig} {s s' : System} {r : ρ}

theorem line_enqueueEvents (p : Processor) (xs : List Tagged) (i : Nat) :
    line row r (p.enqueueEvents xs) i = line row r p i ++ seqs row r xs := by
  simp [line, Processor.enqueueEvents]

theorem sameRow_enqueueEvents {p : Processor} {xs : List Tagged} (h : seqs row r xs = []) :
    SameRow row r p (p.enqueueEvents xs) :=
  ⟨by simp [Processor.enqueueEvents, h], rfl, fun _ => rfl⟩

theorem InOrder.enqueue {table : Nat} {events : List Event} (h : InOrder row r s)
    (hok : RaceFree row s (.enqueue table events))
    (hs : System.step cfg s (.enqueue table events) = some s') : InOrder row r s' := by
  simp only [System.step, Option.some.injEq] at hs
  set xs := tag s.nextSeq events with hxs
  have hat : s'.at =
      Function.update s.at (some table) ((s.processors table).enqueueEvents xs) := by
    rw [← hs, ← s.at_setProcessor]
    rfl
  have hdelivered : s'.delivered = s.delivered := by rw [← hs]; rfl
  have hnext : s'.nextSeq = s.nextSeq + events.length := by rw [← hs]
  by_cases hnone : seqs row r xs = []
  · refine h.same (fun place => ?_) hdelivered (by omega)
    by_cases hp : place = some table
    · subst hp
      rw [hat, Function.update_self]
      exact sameRow_enqueueEvents hnone
    · rw [hat, Function.update_of_ne hp]
      exact .refl _ _
  · -- the row is among the events enqueued, so it is in flight at this table or nowhere
    obtain ⟨x, hx, hr⟩ := exists_of_seqs_ne_nil hnone
    have hmem : x.source ∈ events := by
      simp only [hxs, tag, List.mem_map, Prod.exists] at hx
      obtain ⟨e, i, he, rfl⟩ := hx
      exact List.fst_mem_of_mem_zipIdx he
    have hother : ∀ other, other ≠ some table → Free row r (s.at other) :=
      fun other ho => hr ▸ hok x.source hmem other ho
    obtain ⟨i, hworker, hsorted⟩ := h.at_place hother
    refine ⟨some table, i, fun other ho => ?_, ?_, ?_⟩
    · rw [hat, Function.update_of_ne ho]
      exact hother other ho
    · rw [hat, Function.update_self]
      exact hworker
    · rw [hat, Function.update_self, line_enqueueEvents, hdelivered, hnext, ← List.append_assoc]
      exact pairwise_lt_append_range' hsorted (seqs_tag_sublist r s.nextSeq events)

/-- What a worker takes or gives back changes nothing for the others. -/
theorem setWorker_free {p : Processor} {worker : Nat} {w : Worker} (hf : Free row r p)
    (hw : seqs row r w.held = []) : Free row r (System.setWorker p worker w) := by
  refine ⟨hf.1, hf.2.1, fun j => ?_⟩
  rw [held_setWorker]
  split
  · exact hw
  · exact hf.2.2 j

theorem InOrder.drain {table worker : Nat} (h : InOrder row r s)
    (hok : RaceFree row s (.drain table worker))
    (hs : System.step cfg s (.drain table worker) = some s') : InOrder row r s' := by
  cases moves_of_step hs with
  | drain hidle hready hpending =>
    set p := s.processors table with hp
    have hheld : (p.workers worker).held = [] := by rw [hidle]; rfl
    have hsplit : seqs row r p.drained ++ seqs row r (p.queue.drop (min 10 p.queue.length)) =
        seqs row r p.queue := by
      rw [← seqs_append, Processor.drained, List.take_append_drop]
    refine h.local (s.at_setProcessor table _) rfl ?_ ?_
    · intro hf
      have hqueue := hf.1
      change seqs row r p.queue = [] at hqueue
      rw [← hsplit, List.append_eq_nil_iff] at hqueue
      exact ⟨setWorker_free ⟨hqueue.2, hf.2⟩ hqueue.1, rfl⟩
    · intro i hworker
      change ∀ j, j ≠ i → seqs row r (p.workers j).held = [] at hworker
      by_cases hnone : seqs row r p.drained = []
      · -- nothing of the row is drained: it stays with whoever has it
        rw [hnone, List.nil_append] at hsplit
        refine ⟨i, fun j hj => ?_, ?_⟩
        · rw [held_setWorker]
          split
          · exact hnone
          · exact hworker j hj
        · have hi : seqs row r (if i = worker then p.drained else (p.workers i).held) =
              seqs row r (p.workers i).held := by
            split
            · next hiw => rw [hiw, hheld, hnone, seqs_nil]
            · rfl
          change (_ ++ (_ ++ seqs row r ((System.setWorker _ worker _).workers i).held ++
            seqs row r (p.queue.drop _))).Sublist _
          rw [held_setWorker, Worker.held, hi, hsplit]
          exact List.Sublist.refl _
      · -- the worker gets events of the row, and no other worker has any
        obtain ⟨x, hx, hr⟩ := exists_of_seqs_ne_nil hnone
        have hfree : ∀ j, seqs row r (p.workers j).held = [] := by
          intro j
          by_cases hj : j = worker
          · rw [hj, hheld, seqs_nil]
          · exact hr ▸ hok x hx j hj
        refine ⟨worker, fun j hj => ?_, ?_⟩
        · rw [held_setWorker, if_neg hj]
          exact hfree j
        · change (_ ++ (_ ++ seqs row r ((System.setWorker _ worker _).workers worker).held ++
            seqs row r (p.queue.drop _))).Sublist
            (_ ++ (_ ++ seqs row r (p.workers i).held ++ seqs row r p.queue))
          rw [held_setWorker, if_pos rfl, hfree i, ← hsplit, Worker.held, List.append_nil,
            List.append_assoc (seqs row r _)]
          exact List.Sublist.refl _

theorem InOrder.acquire {table worker : Nat} (h : InOrder row r s)
    (hs : System.step cfg s (.acquire table worker) = some s') : InOrder row r s' := by
  cases moves_of_step hs with
  | @acquire table worker events hw hpermits =>
    refine h.same (fun place => ?_) rfl le_rfl
    rw [System.at_setProcessor]
    by_cases hp : place = some table
    · subst hp
      rw [Function.update_self]
      refine ⟨rfl, rfl, fun j => ?_⟩
      rw [held_setWorker]
      split
      · next hj =>
        change seqs row r events = seqs row r ((s.processors table).workers j).held
        rw [hj, hw]
        rfl
      · rfl
    · rw [Function.update_of_ne hp]
      exact .refl _ _

/-- A worker gives up its batch, and what becomes of it joins the results. -/
theorem InOrder.release {table worker : Nat} {p' : Processor} {w : Worker} {events : List Tagged}
    (batch : List Tagged) (h : InOrder row r s)
    (hs : s' = s.setProcessor table (System.setWorker p' worker w))
    (hevents : ((s.processors table).workers worker).held = events) (hw : w.held = [])
    (hqueue : p'.queue = (s.processors table).queue)
    (hworkers : p'.workers = (s.processors table).workers)
    (hresults : p'.results.flatten = (s.processors table).results.flatten ++ batch)
    (hbatch : (seqs row r batch).Sublist (seqs row r events)) : InOrder row r s' := by
  subst hs
  set p := s.processors table with hp
  refine h.local (s.at_setProcessor table _) rfl ?_ ?_
  · intro hf
    have hnone : seqs row r batch = [] := by
      have hev : seqs row r events = [] := hevents ▸ hf.2.2 worker
      rw [hev] at hbatch
      exact List.sublist_nil.mp hbatch
    refine ⟨setWorker_free ⟨hqueue ▸ hf.1, ?_, fun j => hworkers ▸ hf.2.2 j⟩ (by rw [hw]; rfl), rfl⟩
    rw [hresults, seqs_append, hnone, List.append_nil]
    exact hf.2.1
  -- the events go from the worker's hands to the results, which are next to each other in the line
  · intro i hworker
    change ∀ j, j ≠ i → seqs row r (p.workers j).held = [] at hworker
    refine ⟨i, fun j hj => ?_, ?_⟩
    · rw [held_setWorker, hworkers, hw]
      split
      · rfl
      · exact hworker j hj
    · change (_ ++ (seqs row r p'.results.flatten ++
        seqs row r ((System.setWorker p' worker w).workers i).held ++ seqs row r p'.queue)).Sublist
        (_ ++ (seqs row r p.results.flatten ++ seqs row r (p.workers i).held ++ seqs row r p.queue))
      rw [held_setWorker, hresults, hqueue, hworkers, hw, seqs_append]
      refine (List.Sublist.refl _).append (List.Sublist.append ?_ (List.Sublist.refl _))
      rw [List.append_assoc]
      refine (List.Sublist.refl _).append ?_
      split
      · next hi =>
        rw [hi, hevents, seqs_nil, List.append_nil]
        exact hbatch
      · next hi =>
        have hev : seqs row r events = [] := hevents ▸ hworker worker (Ne.symm hi)
        rw [hev] at hbatch
        rw [List.sublist_nil.mp hbatch, List.nil_append]

theorem InOrder.send {table worker : Nat} (h : InOrder row r s)
    (hs : System.step cfg s (.send table worker) = some s') : InOrder row r s' := by
  cases moves_of_step hs with
  | @send table worker events processed results hw hprocessed hresults =>
    have hevents : ((s.processors table).workers worker).held = events := by rw [hw]; rfl
    rcases hresults with ⟨rfl, rfl⟩ | ⟨-, -, rfl⟩
    · exact h.release [] rfl hevents rfl rfl rfl (by simp) (by simp)
    · exact h.release processed rfl hevents rfl rfl rfl (by simp)
        (processBatch_sublist r hprocessed)
  | @panic table worker events hw hprocessed =>
    have hevents : ((s.processors table).workers worker).held = events := by rw [hw]; rfl
    exact h.release [] rfl hevents rfl rfl rfl (by simp) (by simp)

theorem InOrder.forward {table : Nat} (h : InOrder row r s)
    (hs : System.step cfg s (.forward table) = some s') : InOrder row r s' := by
  cases moves_of_step hs with
  | @forward table batch rest hresults =>
    refine h.local (s.at_setProcessor table _) rfl ?_ ?_
    · intro hf
      have hall := hf.2.1
      change seqs row r (s.processors table).results.flatten = [] at hall
      rw [hresults, List.flatten_cons, seqs_append, List.append_eq_nil_iff] at hall
      refine ⟨⟨hf.1, hall.2, hf.2.2⟩, ?_⟩
      rw [seqs_append, hall.1, List.append_nil]
    · intro i hworker
      refine ⟨i, hworker, ?_⟩
      change (seqs row r (s.delivered ++ batch) ++ (seqs row r rest.flatten ++ _ ++ _)).Sublist
        (_ ++ (seqs row r (s.processors table).results.flatten ++ _ ++ _))
      rw [hresults, List.flatten_cons]
      simp only [seqs_append, List.append_assoc]
      exact List.Sublist.refl _

theorem InOrder.survey (h : InOrder row r s) (hs : System.step cfg s .survey = some s') :
    InOrder row r s' := by
  have hsame : ∀ b, (∀ small stolen, s.balance ≠ .moving small stolen) →
      (∀ small stolen, b ≠ .moving small stolen) → InOrder row r { s with balance := b } := by
    intro b hb hb'
    refine h.same (fun place => ?_) rfl le_rfl
    cases place with
    | some t => exact .refl _ _
    | none =>
      have hold : inHand s.balance = inHand b := by
        cases hbal : s.balance <;> cases b <;> simp_all [inHand]
      change SameRow row r (inHand s.balance) (inHand b)
      rw [hold]
      exact .refl _ _
  cases moves_of_step hs with
  | surveyFirst htables hbal => exact hsame _ (by simp [hbal]) (by simp)
  | surveyNext hbal hnext => exact hsame _ (by simp [hbal]) (by simp)

theorem seqs_stolen (row : Event → ρ) (r : ρ) (p : Processor) (count : Nat) :
    seqs row r (p.afterSteal count).queue ++ (seqs row r (p.stolen count)).reverse =
      seqs row r p.queue := by
  have hrev : (seqs row r (p.stolen count)).reverse =
      seqs row r (p.queue.drop (p.queue.length - p.stealCount count)) := by
    rw [Processor.stolen, List.take_reverse]
    simp [seqs, List.filter_reverse, List.map_reverse]
  rw [hrev, ← seqs_append, Processor.afterSteal, List.take_append_drop]

/-- A list of numbers that increase and are all one number is that number at most once. -/
theorem eq_singleton_of_subset {l : List Nat} {n : Nat} (hl : l.Pairwise (· < ·)) (hn : n ∈ l)
    (hsub : l ⊆ [n]) : l = [n] := by
  match l, hl, hn, hsub with
  | [a], _, hn, _ => rw [List.mem_singleton.mp hn]
  | a :: b :: l, hl, _, hsub =>
    have ha := List.mem_singleton.mp (hsub List.mem_cons_self)
    have hb := List.mem_singleton.mp (hsub (List.mem_cons_of_mem _ List.mem_cons_self))
    have hlt := (List.pairwise_cons.mp hl).1 b List.mem_cons_self
    omega

/-- If all that a processor has of a row is one event, and that is stolen, the processor is free of
the row. -/
theorem free_afterSteal {p : Processor} {count i n : Nat} (hline : line row r p i = [n])
    (hn : n ∈ seqs row r (p.stolen count))
    (hworker : ∀ j, j ≠ i → seqs row r (p.workers j).held = []) :
    Free row r (p.afterSteal count) ∧ seqs row r (p.stolen count) = [n] := by
  rw [line, ← seqs_stolen row r p count] at hline
  have hlength := congrArg List.length hline
  have hpos := List.length_pos_of_mem hn
  simp only [List.length_append, List.length_reverse, List.length_singleton] at hlength
  have hresults : seqs row r p.results.flatten = [] := List.eq_nil_of_length_eq_zero (by omega)
  have hheld : seqs row r (p.workers i).held = [] := List.eq_nil_of_length_eq_zero (by omega)
  have hqueue : seqs row r (p.afterSteal count).queue = [] :=
    List.eq_nil_of_length_eq_zero (by omega)
  refine ⟨⟨hqueue, hresults, fun j => ?_⟩, ?_⟩
  · by_cases hj : j = i
    · exact hj ▸ hheld
    · exact hworker j hj
  · simp only [hresults, hheld, hqueue, List.nil_append] at hline
    simpa using congrArg List.reverse hline

/-- Events leave the end of a queue for the balancer's empty hands. -/
theorem InOrder.stolen {small large count : Nat} (h : InOrder row r s)
    (hhand : s.at none = ⟨[], 0, fun _ => .idle, []⟩)
    (hok : ∀ x ∈ (s.processors large).stolen count, ∀ place i,
      line row (row x.source) (s.at place) i ⊆ [x.seq]) :
    InOrder row r { s.setProcessor large ((s.processors large).afterSteal count) with
      balance := .moving small ((s.processors large).stolen count) } := by
  set p := s.processors large with hp
  have hsplit := seqs_stolen row r p count
  have hsome : ∀ t, ({ s.setProcessor large (p.afterSteal count) with
      balance := .moving small (p.stolen count) } : System).at (some t) =
      if t = large then p.afterSteal count else s.processors t := by
    intro t
    by_cases ht : t = large
    · subst ht
      simp [System.at, System.setProcessor]
    · simp [System.at, System.setProcessor, ht]
  by_cases hnone : seqs row r (p.stolen count) = []
  · rw [hnone, List.reverse_nil, List.append_nil] at hsplit
    refine h.same (fun place => ?_) rfl le_rfl
    cases place with
    | none =>
      rw [hhand]
      exact ⟨hnone, rfl, fun _ => rfl⟩
    | some t =>
      rw [hsome]
      split
      · next ht =>
        subst ht
        exact ⟨hsplit, rfl, fun _ => rfl⟩
      · exact .refl _ _
  · -- the one event of the row in flight is the stolen one
    obtain ⟨x, hx, rfl⟩ := exists_of_seqs_ne_nil hnone
    obtain ⟨q, i, hother, hworker, hsorted⟩ := h
    have hxs : x.seq ∈ seqs row (row x.source) (p.stolen count) := mem_seqs.mpr ⟨x, hx, rfl, rfl⟩
    have hxq : x.seq ∈ seqs row (row x.source) p.queue := by
      rw [← hsplit]
      exact List.mem_append_right _ (List.mem_reverse.mpr hxs)
    have hq : q = some large := by
      by_contra hq
      have hfree : seqs row (row x.source) p.queue = [] := (hother (some large) (Ne.symm hq)).1
      rw [hfree] at hxq
      cases hxq
    subst hq
    have hline : line row (row x.source) p i = [x.seq] := by
      refine eq_singleton_of_subset ?_ (List.mem_append_right _ hxq) (hok x hx (some large) i)
      exact (List.pairwise_append.mp (List.pairwise_append.mp hsorted).1).2.1
    obtain ⟨hfree, hstolen⟩ := free_afterSteal hline hxs hworker
    refine ⟨none, i, fun other ho => ?_, fun _ _ => rfl, ?_⟩
    · cases other with
      | none => exact absurd rfl ho
      | some t =>
        rw [hsome]
        split
        · exact hfree
        · next ht => exact hother (some t) (by simpa using ht)
    · have hmem : [x.seq].Sublist (line row (row x.source) p i) :=
        List.singleton_sublist.mpr (List.mem_append_right _ hxq)
      change (_ ++ ([] ++ [] ++ seqs row (row x.source) (p.stolen count)) ++ _).Pairwise _
      rw [hstolen]
      exact hsorted.sublist (((List.Sublist.refl _).append hmem).append (List.Sublist.refl _))

theorem InOrder.steal (h : InOrder row r s) (hok : RaceFree row s .steal)
    (hs : System.step cfg s .steal = some s') : InOrder row r s' := by
  have hhand : ∀ sizes, s.balance = .surveying sizes → s.at none = ⟨[], 0, fun _ => .idle, []⟩ := by
    intro sizes hbal
    simp [System.at, inHand, hbal]
  cases moves_of_step hs with
  | @steal sizes small large count hbal hplan =>
    exact h.stolen (hhand sizes hbal) (hok sizes small large count hbal hplan)
  | @leave sizes hbal hplan =>
    refine h.same (fun place => ?_) rfl le_rfl
    cases place with
    | some t => exact .refl _ _
    | none =>
      rw [hhand sizes hbal]
      exact .refl _ _

theorem InOrder.settle (h : InOrder row r s) (hs : System.step cfg s .settle = some s') :
    InOrder row r s' := by
  cases moves_of_step hs with
  | @settle small stolen hbal =>
    have hhand : s.at none = ⟨stolen, 0, fun _ => .idle, []⟩ := by
      simp [System.at, inHand, hbal]
    have hsome : ∀ t, ({ s.setProcessor small ((s.processors small).enqueueEvents stolen) with
        balance := .waiting } : System).at (some t) =
        if t = small then (s.processors t).enqueueEvents stolen else s.processors t := by
      intro t
      by_cases ht : t = small
      · subst ht
        simp [System.at, System.setProcessor]
      · simp [System.at, System.setProcessor, ht]
    by_cases hnone : seqs row r stolen = []
    · refine h.same (fun place => ?_) rfl le_rfl
      cases place with
      | some t =>
        rw [hsome]
        split
        · exact sameRow_enqueueEvents hnone
        · exact .refl _ _
      | none =>
        rw [hhand]
        exact ⟨hnone.symm, rfl, fun _ => rfl⟩
    · -- the row is in the balancer's hands, so it is in flight nowhere else
      obtain ⟨q, i, hother, hworker, hsorted⟩ := h
      have hq : q = none := by
        by_contra hq
        have hfree := (hother none (Ne.symm hq)).1
        rw [hhand] at hfree
        exact hnone hfree
      subst hq
      have hsmall : Free row r (s.processors small) := hother (some small) (by simp)
      refine ⟨some small, i, fun other ho => ?_, fun j _ => ?_, ?_⟩
      · cases other with
        | none => exact ⟨rfl, rfl, fun _ => rfl⟩
        | some t =>
          rw [hsome, if_neg (by simpa using ho)]
          exact hother (some t) (by simp)
      · rw [hsome, if_pos rfl]
        exact hsmall.2.2 j
      · rw [hsome, if_pos rfl, line_enqueueEvents, hsmall.line, List.nil_append]
        rw [hhand] at hsorted
        exact hsorted

/-- **Every race-free step keeps every row in order.** -/
theorem InOrder.step {l : Label} (h : InOrder row r s) (hok : RaceFree row s l)
    (hs : System.step cfg s l = some s') : InOrder row r s' := by
  cases l with
  | enqueue table events => exact h.enqueue hok hs
  | drain table worker => exact h.drain hok hs
  | acquire table worker => exact h.acquire hs
  | send table worker => exact h.send hs
  | forward table => exact h.forward hs
  | survey => exact h.survey hs
  | steal => exact h.steal hok hs
  | settle => exact h.settle hs

theorem inOrder_start (r : ρ) : InOrder row r (.start cfg) := by
  refine ⟨none, 0, fun other _ => ?_, fun _ _ => rfl,
    by simp [System.start, line, System.at, inHand, Worker.held]⟩
  cases other with
  | none => exact ⟨rfl, rfl, fun _ => rfl⟩
  | some t => exact ⟨rfl, rfl, fun _ => rfl⟩

theorem ordered_of_inOrder (h : ∀ r, InOrder row r s) : Ordered row s := by
  refine List.pairwise_iff_forall_sublist.mpr fun {x y} hxy hrow => ?_
  obtain ⟨_, _, -, -, hsorted⟩ := h (row y.source)
  have hd := (List.pairwise_append.mp (List.pairwise_append.mp hsorted).1).1
  have hpair : (seqs row (row y.source) [x, y]).Pairwise (· < ·) :=
    hd.sublist ((hxy.filter _).map _)
  simpa [seqs, hrow] using hpair

end Order

/-! ## Runs -/

/-- **Row order in parallel processing.** In every run without races the events of each row reach
the destination channel in the order in which they were enqueued. -/
theorem parallel_rows_ordered {ρ : Type} [DecidableEq ρ] (row : Event → ρ) (cfg : ParallelConfig)
    (s : System) (h : ((machine cfg).restrict (RaceFree row)).Reachable s) : Ordered row s := by
  refine ordered_of_inOrder fun r => h.invariant ?_ ?_
  · rintro s rfl
    exact inOrder_start r
  · rintro s l s' hi ⟨hok, hs⟩
    exact hi.step hok hs

/-! ### Two workers, one row -/

/-- The row of a CDC event whose table has the primary key `pk`. -/
def rowOf (pk : String) : Event → Option (String × Option Value)
  | .cdc e => some (e.table, e.data.get pk)
  | _ => none

instance {ρ : Type} [DecidableEq ρ] (row : Event → ρ) (s : System) : Decidable (Ordered row s) :=
  inferInstanceAs (Decidable (s.delivered.Pairwise _))

/-- One table without stages, and two workers. -/
def twoWorkers : ParallelConfig where
  rt := ⟨id, id, ""⟩
  tables := 1
  stages _ := ⟨none, none, none, none⟩
  workersPerTable := 2
  maxConcurrentEvents := 1000
  workStealing := false

/-- A change of user 1. -/
def userEvent (eventType : EventType) : Event :=
  .cdc {
    eventType
    table := "users"
    schema := "public"
    data := [("id", .number (.ofNat 1))]
    position := none }

theorem parallel_rows_ordered_create_update : ∃ s : System,
    ((machine twoWorkers).restrict (RaceFree (rowOf "id"))).Reachable s ∧
      s.delivered.length = 2 ∧ Ordered (rowOf "id") s := by
  have h₀ : ((machine twoWorkers).restrict (RaceFree (rowOf "id"))).Reachable (.start twoWorkers) :=
    .init rfl
  have henqueue : RaceFree (rowOf "id") (.start twoWorkers)
      (.enqueue 0 [userEvent .create, userEvent .update]) := by
    intro e _ other _
    cases other <;> exact ⟨rfl, rfl, fun _ => rfl⟩
  have h₁ := h₀.restrict_step _ henqueue rfl
  have h₂ := h₁.restrict_step (.drain 0 0) (fun _ _ _ _ => rfl) rfl
  have h₃ := h₂.restrict_step (.acquire 0 0) trivial rfl
  have h₄ := h₃.restrict_step (.send 0 0) trivial rfl
  have h₅ := h₄.restrict_step (.forward 0) trivial rfl
  exact ⟨_, h₅, rfl, parallel_rows_ordered _ _ _ h₅⟩

/-- The first worker drains the creation of a user and the second one the update; the second one is
faster. -/
theorem parallel_rows_not_ordered : ¬ ∀ (cfg : ParallelConfig) (s : System),
    (machine cfg).Reachable s → Ordered (rowOf "id") s := by
  intro h
  have hrun : ∃ s, Trans.Machine.runFn (System.step twoWorkers) (.start twoWorkers)
      [.enqueue 0 [userEvent .create], .drain 0 0, .enqueue 0 [userEvent .update], .drain 0 1,
        .acquire 0 1, .send 0 1, .forward 0, .acquire 0 0, .send 0 0, .forward 0] = some s ∧
      ¬ Ordered (rowOf "id") s := ⟨_, rfl, by decide⟩
  obtain ⟨s, hs, hno⟩ := hrun
  exact hno (h twoWorkers s (Trans.Machine.reachable_of_runFn (.init rfl) hs))

end Parallel

end MeiliBridge
