import MeiliBridge.Lib.Trans
import MeiliBridge.Orchestrator.BatchSpec

/-!
# Events that leave the batch of the at-least-once path

A task with at-least-once delivery as a machine: events enter `event_batch`, and `process_batch`
is called on it, with whatever answers of the destination and of the storage. An event should only
leave the batch once it is *settled*, that is delivered or in the dead letter queue. That fails,
since a failed call leaves its events marked as seen, and since a batch whose last event has no
position is cleared unsent. `gone_settled` proves it of the runs that stay clear of both.
-/

set_option autoImplicit false

namespace MeiliBridge

open Interaction Trans PipelineOrchestrator

/-- The destination has taken the event, or the task's dead letter queue holds it. -/
def Settled (taskId : String) (log : List Obs) (e : Event) : Prop :=
  Acked log e ∨ Obs.deadLettered taskId e ∈ log

theorem Settled.mono {taskId : String} {log log' : List Obs} {e : Event} (hlog : log <+: log')
    (h : Settled taskId log e) : Settled taskId log' e :=
  h.imp (Acked.mono hlog) fun hmem => hlog.subset hmem

/-- A task's pipeline between two calls of `process_batch`. -/
structure TaskState where
  world : World
  /-- `event_batch` -/
  batch : List Event
  /-- the events that have entered the batch so far -/
  offered : List Event
  /-- the events some call has left in the batch -/
  kept : List Event
  /-- the events that have left the batch -/
  gone : List Event
  /-- a panic ends the task -/
  running : Bool

inductive TaskLabel where
  | receive (e : Event)
  | process
  deriving DecidableEq

namespace TaskState

def start (w : World) : TaskState := ⟨w, [], [], [], [], true⟩

def receive (s : TaskState) (e : Event) : TaskState :=
  { s with batch := s.batch ++ [e], offered := s.offered ++ [e] }

/-- After a call that ended in the world `w`. -/
def settle (s : TaskState) (w : World) : Except Fault (List Event) → TaskState
  | .ok left =>
    { s with
      world := w, batch := left, kept := s.kept ++ left, gone := s.gone ++ s.batch.diff left }
  | .error _ => { s with world := w, running := false }

end TaskState

/-- A task from a fresh deduplication window on, under any behaviour of its surroundings. -/
def taskMachine (task : TaskParams) : Machine TaskState TaskLabel where
  init s := ∃ w n, w.deduplicator = .new n ∧ s = .start w
  step s l s' := s.running = true ∧
    match l with
    | .receive e => s' = s.receive e
    | .process => ∃ r w, Runs World.handler (fun _ => True)
        (processBatch task s.batch) s.world r w ∧ s' = s.settle w r

/-- The calls that lose nothing: the last event of the batch has a position; the batch's keys tell
its events apart; and a key that is still in the window is that of no other event, nor of one that
a call has kept unless that one is `good` by now. -/
def Sound (good : List Obs → Event → Prop) (s : TaskState) : TaskLabel → Prop
  | .receive _ => True
  | .process => s.batch ≠ [] →
    (∃ last position, s.batch.getLast? = some last ∧
      extractPositionFromEvent last = some position) ∧
    (∀ e ∈ s.batch, ∀ e' ∈ s.batch,
      createDedupKeyFromEvent e' = createDedupKeyFromEvent e → e' = e) ∧
    ∀ e ∈ s.batch, s.world.deduplicator.contains (createDedupKeyFromEvent e) = true →
      (∀ e' ∈ s.offered, createDedupKeyFromEvent e' = createDedupKeyFromEvent e → e' = e) ∧
      (e ∈ s.kept → good s.world.log e)

namespace PipelineOrchestrator

/-- What `process_batch` makes of the result of the at-least-once path. -/
def afterCall (batch : List Event) : Except Fault (List Event) → Except Fault (List Event)
  | .ok left => .ok left
  | .error (.err _) => .ok batch
  | .error .panic => .error .panic

theorem wp_processBatch {P : Choice → Prop} {task : TaskParams} {cfg : AtLeastOnceConfig}
    (htask : task.atLeastOnce = some cfg) {batch : List Event} {last : Event} {position : Position}
    (hlast : batch.getLast? = some last) (hpos : extractPositionFromEvent last = some position)
    (w : World) :
    wp World.handler P (fun _ => True) (processBatch task batch)
      (fun r v => ∃ r₀, CallOutcome batch w r₀ v ∧ r = afterCall batch r₀) w := by
  have hne : batch ≠ [] := fun h => by simp [h] at hlast
  rw [processBatch, if_neg hne, htask]
  refine wp_bind.mpr (wp_attempt.mpr ?_)
  refine (wp_processBatchWithAtLeastOnce hlast hpos w).mono (fun _ h => h) fun r v _ hv => ?_
  match r with
  | .ok left => exact ⟨trivial, _, hv, rfl⟩
  | .error (.err _) => exact ⟨trivial, _, hv, rfl⟩
  | .error .panic => exact ⟨trivial, _, hv, rfl⟩

end PipelineOrchestrator

/-! ## The invariant -/

/-- A thing that may be asked of an event before it leaves the batch: an acknowledgement is enough,
and nothing takes it back. -/
structure Lasting (good : List Obs → Event → Prop) : Prop where
  acked : ∀ {log e}, Acked log e → good log e
  grow : ∀ {log log' e}, log <+: log' → good log e → good log' e

theorem Lasting.settled {taskId : String} : Lasting (Settled taskId) where
  acked h := Or.inl h
  grow := Settled.mono

/-- What is known of a task between its calls. -/
structure TaskInv (good : List Obs → Event → Prop) (s : TaskState) : Prop where
  batch_offered : ∀ e ∈ s.batch, e ∈ s.offered
  accounted : ∀ e ∈ s.offered, e ∈ s.batch ∨ good s.world.log e
  gone : ∀ e ∈ s.gone, good s.world.log e
  /-- a key in the window is that of an event that is good or was kept -/
  window : s.running = true → ∀ key, s.world.deduplicator.contains key = true → ∃ e ∈ s.offered,
    createDedupKeyFromEvent e = key ∧ (good s.world.log e ∨ e ∈ s.kept)

section

variable {good : List Obs → Event → Prop} {task : TaskParams} {cfg : AtLeastOnceConfig}
  {s s' : TaskState}

theorem TaskInv.start {w : World} {n : Nat} (hw : w.deduplicator = .new n) :
    TaskInv good (.start w) where
  batch_offered e he := he
  accounted e he := absurd he List.not_mem_nil
  gone e he := absurd he List.not_mem_nil
  window _ key hkey := by simp [TaskState.start, hw] at hkey

theorem TaskInv.receive (h : TaskInv good s) (e : Event) :
    TaskInv good (s.receive e) where
  batch_offered e' he' := by
    rcases List.mem_append.mp he' with he' | he'
    · exact List.mem_append_left _ (h.batch_offered e' he')
    · exact List.mem_append_right _ he'
  accounted e' he' := by
    rcases List.mem_append.mp he' with he' | he'
    · exact (h.accounted e' he').imp_left (List.mem_append_left _)
    · exact Or.inl (List.mem_append_right _ he')
  gone := h.gone
  window hrun key hkey := by
    obtain ⟨e', he', hk, hcase⟩ := h.window hrun key hkey
    exact ⟨e', List.mem_append_left _ he', hk, hcase⟩

/-- In a sound call a seen event is a good one. -/
theorem TaskInv.seen_good (h : TaskInv good s) (hrun : s.running = true)
    (hsound : Sound good s .process) {e : Event} (he : e ∈ s.batch)
    (hseen : s.world.deduplicator.contains (createDedupKeyFromEvent e) = true) :
    good s.world.log e := by
  obtain ⟨e₀, he₀, hkey, hcase⟩ := h.window hrun _ hseen
  obtain ⟨hsame, hkept⟩ := (hsound (List.ne_nil_of_mem he)).2.2 e he hseen
  obtain rfl := hsame e₀ he₀ hkey
  exact hcase.elim id hkept

/-- A sound call that returns normally leaves all of the batch good. -/
theorem TaskInv.batch_good (hgood : Lasting good) (h : TaskInv good s) (hrun : s.running = true)
    (hsound : Sound good s .process) {left : List Event} {w : World}
    (hcall : CallOutcome s.batch s.world (.ok left) w)
    {e : Event} (he : e ∈ s.batch) : good w.log e := by
  rcases (hcall.left left rfl).2 e he with hseen | ⟨e', he', hkey, hacked⟩
  · exact hgood.grow hcall.log (h.seen_good hrun hsound he hseen)
  · obtain rfl := (hsound (List.ne_nil_of_mem he)).2.1 e he e' he' hkey
    exact hgood.acked hacked

theorem diff_self (l : List Event) : l.diff l = [] := by
  induction l with
  | nil => rfl
  | cons e l ih => rw [List.diff_cons, List.erase_cons_head, ih]

theorem TaskInv.process (hgood : Lasting good) (h : TaskInv good s) (hrun : s.running = true)
    (hsound : Sound good s .process) {r : Except Fault (List Event)} {w : World}
    (hcall : CallOutcome s.batch s.world r w) :
    TaskInv good (s.settle w (afterCall s.batch r)) := by
  have hgone : ∀ e ∈ s.gone, good w.log e := fun e he => hgood.grow hcall.log (h.gone e he)
  have hold : ∀ key, s.world.deduplicator.contains key = true → ∃ e ∈ s.offered,
      createDedupKeyFromEvent e = key ∧ (good w.log e ∨ e ∈ s.kept) := by
    intro key hkey
    obtain ⟨e, he, hk, hcase⟩ := h.window hrun key hkey
    exact ⟨e, he, hk, hcase.imp_left (hgood.grow hcall.log)⟩
  have haccounted : ∀ e ∈ s.offered, e ∈ s.batch ∨ good w.log e := fun e he =>
    (h.accounted e he).imp_right (hgood.grow hcall.log)
  match r, hcall with
  | .ok left, hcall =>
    obtain ⟨rfl, -⟩ := hcall.left left rfl
    refine ⟨fun e he => absurd he List.not_mem_nil, fun e he => Or.inr ?_, fun e he => ?_,
      fun _ key hkey => ?_⟩
    · exact (haccounted e he).elim (fun he => h.batch_good hgood hrun hsound hcall he) id
    · rcases List.mem_append.mp he with he | he
      · exact hgone e he
      · exact h.batch_good hgood hrun hsound hcall he
    · rcases hcall.window key hkey with hseen | ⟨e, he, hk⟩
      · obtain ⟨e, he, hk, hcase⟩ := hold key hseen
        exact ⟨e, he, hk, hcase.imp_right (List.mem_append_left _)⟩
      · exact ⟨e, h.batch_offered e he, hk, Or.inl (h.batch_good hgood hrun hsound hcall he)⟩
  | .error (.err err), hcall =>
    -- the batch stays as it is, and all of it counts as kept from now on
    refine ⟨h.batch_offered, haccounted, fun e he => ?_, fun _ key hkey => ?_⟩
    · rcases List.mem_append.mp he with he | he
      · exact hgone e he
      · rw [diff_self] at he
        cases he
    · rcases hcall.window key hkey with hseen | ⟨e, he, hk⟩
      · obtain ⟨e, he, hk, hcase⟩ := hold key hseen
        exact ⟨e, he, hk, hcase.imp_right (List.mem_append_left _)⟩
      · exact ⟨e, h.batch_offered e he, hk, Or.inr (List.mem_append_right _ he)⟩
  | .error .panic, hcall =>
    exact ⟨h.batch_offered, haccounted, hgone, fun hstopped => nomatch hstopped⟩

theorem TaskInv.step (hgood : Lasting good) (htask : task.atLeastOnce = some cfg) {l : TaskLabel}
    (h : TaskInv good s)
    (hs : ((taskMachine task).restrict (Sound good)).step s l s') :
    TaskInv good s' := by
  obtain ⟨hsound, hrun, hstep⟩ := hs
  cases l with
  | receive e =>
    obtain rfl := hstep
    exact h.receive e
  | process =>
    obtain ⟨r, w, hr, rfl⟩ := hstep
    by_cases hne : s.batch = []
    · rw [hne, processBatch, if_pos rfl] at hr
      obtain ⟨rfl, rfl⟩ := hr
      refine ⟨fun e he => absurd he List.not_mem_nil, fun e he => ?_, fun e he => ?_,
        fun _ key hkey => ?_⟩
      · exact (h.accounted e he).imp_left fun he => hne ▸ he
      · rw [TaskState.settle, hne] at he
        exact h.gone e (by simpa using he)
      · obtain ⟨e, he, hk, hcase⟩ := h.window hrun key hkey
        exact ⟨e, he, hk, hcase.imp_right (List.mem_append_left _)⟩
    · obtain ⟨last, position, hlast, hpos⟩ := (hsound hne).1
      obtain ⟨r₀, hcall, rfl⟩ :=
        (wp_iff.mp (wp_processBatch htask hlast hpos s.world)).2 r w hr
      exact h.process hgood hrun hsound hcall

end

/-! ## Runs in fixed surroundings -/

/-- The state after a call in which the surroundings decide `c` throughout. -/
def TaskState.process (task : TaskParams) (c : Choice) (s : TaskState) : TaskState :=
  let (r, w) := eval World.handler c (processBatch task s.batch) s.world
  s.settle w r

theorem taskMachine_receive {task : TaskParams} {s : TaskState} (hrun : s.running = true)
    (e : Event) : (taskMachine task).step s (.receive e) (s.receive e) :=
  ⟨hrun, rfl⟩

theorem taskMachine_process {task : TaskParams} {s : TaskState} (hrun : s.running = true)
    (c : Choice) : (taskMachine task).step s .process (s.process task c) :=
  ⟨hrun, _, _, runs_eval trivial _ _, rfl⟩

def booksTask : TaskParams := ⟨"books", true, some ⟨true, 100, 30, false⟩⟩

theorem booksTask_atLeastOnce : booksTask.atLeastOnce = some ⟨true, 100, 30, false⟩ := rfl

/-- A world in which nothing has happened yet. -/
def freshWorld : World := ⟨∅, [], .new 100, .new 30, true, ∅, ∅, []⟩

def bookInserted : Event :=
  .cdc ⟨.create, "books", "public", [("id", .string "b1")], some (.postgreSQL "0/10")⟩

/-- Surroundings in which everything succeeds but for the destination, which gives this answer. -/
def answering (answer : Answer) : Choice :=
  ⟨0, "4f2a", fun _ => .succeeds, .succeeds, fun _ => ⟨answer, []⟩⟩

theorem sound_bookInserted (good : List Obs → Event → Prop) :
    Sound good ((TaskState.start freshWorld).receive bookInserted) .process := by
  refine fun _ => ⟨⟨bookInserted, _, rfl, rfl⟩, ?_, ?_⟩
  · intro e he e' he' _
    exact (List.mem_singleton.mp he').trans (List.mem_singleton.mp he).symm
  · intro e _ hseen
    cases hseen

/-! ## The guarantee -/

/-- **Nothing leaves the batch unsettled in a run whose calls are all sound.** -/
theorem gone_settled {task : TaskParams} {cfg : AtLeastOnceConfig}
    (htask : task.atLeastOnce = some cfg) {s : TaskState}
    (h : ((taskMachine task).restrict (Sound (Settled task.taskId))).Reachable s) :
    ∀ e ∈ s.gone, Settled task.taskId s.world.log e := by
  have hinv : TaskInv (Settled task.taskId) s := by
    refine h.invariant ?_ fun _ _ _ hi hs => hi.step .settled htask hs
    rintro s₀ ⟨w, n, hw, rfl⟩
    exact TaskInv.start hw
  exact hinv.gone

/-- A delivered book. -/
def bookDelivered : TaskState :=
  ((TaskState.start freshWorld).receive bookInserted).process booksTask
    (answering (.response ⟨1, 0, some (.postgreSQL "0/10"), []⟩))

theorem gone_settled_book : bookInserted ∈ bookDelivered.gone ∧
    ∀ e ∈ bookDelivered.gone, Settled "books" bookDelivered.world.log e := by
  refine ⟨by decide, gone_settled booksTask_atLeastOnce ?_⟩
  have hstart : ((taskMachine booksTask).restrict (Sound (Settled "books"))).Reachable
      (.start freshWorld) := .init ⟨freshWorld, 100, rfl, rfl⟩
  have hreceived := hstart.step (l := TaskLabel.receive bookInserted)
    ⟨trivial, taskMachine_receive rfl bookInserted⟩
  exact hreceived.step ⟨sound_bookInserted _, taskMachine_process rfl _⟩

/-- A book whose batch got no answer and was processed again. -/
def bookRetried : TaskState :=
  (((TaskState.start freshWorld).receive bookInserted).process booksTask
    (answering .dropped)).process booksTask (answering .dropped)

/-- The second call takes the kept event for a duplicate and clears the batch. -/
theorem gone_not_always_settled : ¬ ∀ (task : TaskParams) (cfg : AtLeastOnceConfig)
    (s : TaskState), task.atLeastOnce = some cfg → (taskMachine task).Reachable s →
      ∀ e ∈ s.gone, Settled task.taskId s.world.log e := by
  intro h
  have hstart : (taskMachine booksTask).Reachable (.start freshWorld) :=
    .init ⟨freshWorld, 100, rfl, rfl⟩
  have hreach : (taskMachine booksTask).Reachable bookRetried :=
    ((hstart.step (taskMachine_receive rfl bookInserted)).step
      (taskMachine_process rfl (answering .dropped))).step
      (taskMachine_process rfl (answering .dropped))
  have hlog : bookRetried.world.log = [.processed [bookInserted] ⟨.dropped, []⟩] := by decide
  have hsettled := h booksTask _ _ rfl hreach bookInserted (by decide)
  rw [Settled, hlog] at hsettled
  rcases hsettled with ⟨events, delivery, response, hmem, hanswer, -⟩ | hmem
  · obtain ⟨-, rfl⟩ := Obs.processed.inj (List.mem_singleton.mp hmem)
    cases hanswer
  · cases List.mem_singleton.mp hmem

end MeiliBridge
