import MeiliBridge.Delivery.Frames
import MeiliBridge.Orchestrator.ProcessBatch

/-!
# What one call on a batch does

`Acked` says when the destination has taken an event; it is all that the guarantees of the
at-least-once path ask of the log. The deduplication loop is specified by `Deduplicated`, and one
whole call by `CallOutcome`: the only way for events to leave the batch is an answer without
failures, or a deduplication that took all of them.
-/

set_option autoImplicit false

namespace MeiliBridge

open Interaction

/-- Some command with the event was answered with no failures. -/
def Acked (log : List Obs) (e : Event) : Prop :=
  ∃ events delivery response, Obs.processed events delivery ∈ log ∧
    delivery.answer = .response response ∧ response.failedCount = 0 ∧ e ∈ events

theorem Acked.mono {log log' : List Obs} {e : Event} (hlog : log <+: log') (h : Acked log e) :
    Acked log' e := by
  obtain ⟨events, delivery, response, hmem, hrest⟩ := h
  exact ⟨events, delivery, response, hlog.subset hmem, hrest⟩

/-- What the deduplication loop leaves of a batch, and of the window. -/
structure Deduplicated (batch kept : List Event) (d d' : EventDeduplicator) : Prop where
  sub : ∀ e ∈ kept, e ∈ batch
  /-- an event is skipped for a key that was there before, or came in with the batch -/
  covered : ∀ e ∈ batch, d.contains (createDedupKeyFromEvent e) = true ∨
    ∃ e' ∈ kept, createDedupKeyFromEvent e' = createDedupKeyFromEvent e
  window : ∀ key, d'.contains key = true → d.contains key = true ∨
    ∃ e ∈ kept, createDedupKeyFromEvent e = key

theorem Deduplicated.nil (d : EventDeduplicator) : Deduplicated [] [] d d :=
  ⟨by simp, by simp, fun _ h => Or.inl h⟩

theorem Deduplicated.skip {e : Event} {batch kept : List Event} {d d' : EventDeduplicator}
    (h : Deduplicated batch kept d d') (he : d.contains (createDedupKeyFromEvent e) = true) :
    Deduplicated (e :: batch) kept d d' where
  sub e' he' := List.mem_cons_of_mem _ (h.sub e' he')
  covered e' he' := by
    rcases List.mem_cons.mp he' with rfl | he'
    · exact Or.inl he
    · exact h.covered e' he'
  window := h.window

theorem Deduplicated.keep {e : Event} {batch kept : List Event} {d d₁ d' : EventDeduplicator}
    (h : Deduplicated batch kept d₁ d')
    (hadd : ∀ key, d₁.contains key = true →
      key = createDedupKeyFromEvent e ∨ d.contains key = true) :
    Deduplicated (e :: batch) (e :: kept) d d' where
  sub e' he' := by
    rcases List.mem_cons.mp he' with rfl | he'
    · exact List.mem_cons_self
    · exact List.mem_cons_of_mem _ (h.sub e' he')
  covered e' he' := by
    rcases List.mem_cons.mp he' with rfl | he'
    · exact Or.inr ⟨e', List.mem_cons_self, rfl⟩
    · rcases h.covered e' he' with hd | ⟨e₁, he₁, hkey⟩
      · rcases hadd _ hd with heq | hd
        · exact Or.inr ⟨e, List.mem_cons_self, heq.symm⟩
        · exact Or.inl hd
      · exact Or.inr ⟨e₁, List.mem_cons_of_mem _ he₁, hkey⟩
  window key hkey := by
    rcases h.window key hkey with hd | ⟨e₁, he₁, rfl⟩
    · rcases hadd _ hd with rfl | hd
      · exact Or.inr ⟨e, List.mem_cons_self, rfl⟩
      · exact Or.inl hd
    · exact Or.inr ⟨e₁, List.mem_cons_of_mem _ he₁, rfl⟩

namespace PipelineOrchestrator

variable {P : Choice → Prop} {cfg : AtLeastOnceConfig} {task : TaskParams}

theorem wp_isDuplicate {I : World → Prop} {Q : Except Fault Bool → World → Prop} {w : World}
    {key : DeduplicationKey} (hI : I w) (hfresh : Q (.ok false) w)
    (hseen : w.deduplicator.contains key = true → Q (.ok true) w) :
    wp World.handler P I (AtLeastOnceManager.isDuplicate cfg key) Q w := by
  unfold AtLeastOnceManager.isDuplicate
  split
  · exact ⟨hI, hfresh⟩
  · refine ⟨hI, fun c _ => ⟨hI, ?_⟩⟩
    show Q (.ok (w.deduplicator.contains key)) w
    cases hd : w.deduplicator.contains key with
    | true => exact hseen hd
    | false => exact hfresh

theorem wp_markProcessed {I : World → Prop} {Q : Except Fault Unit → World → Prop} {w : World}
    {key : DeduplicationKey}
    (h : ∀ d, (∀ k, d.contains k = true → k = key ∨ w.deduplicator.contains k = true) →
      I { w with deduplicator := d } ∧ Q (.ok ()) { w with deduplicator := d }) :
    wp World.handler P I (AtLeastOnceManager.markProcessed cfg key) Q w := by
  have hsame := h w.deduplicator fun _ hk => Or.inr hk
  unfold AtLeastOnceManager.markProcessed
  split
  · exact hsame
  · exact ⟨hsame.1, fun c _ => h _ fun k hk => EventDeduplicator.contains_add hk⟩

/-- **The deduplication loop** changes nothing but the window. -/
theorem wp_deduplicate (batch : List Event) (w : World) :
    wp World.handler P (fun v => ∃ d, v = { w with deduplicator := d })
      (deduplicate cfg batch)
      (fun r v => ∃ kept d, r = .ok kept ∧ v = { w with deduplicator := d } ∧
        Deduplicated batch kept w.deduplicator d) w := by
  induction batch generalizing w with
  | nil => exact ⟨⟨_, rfl⟩, [], _, rfl, rfl, .nil _⟩
  | cons e batch ih =>
    refine wp_bind.mpr (wp_isDuplicate ⟨_, rfl⟩ ?_ fun hseen => ?_)
    · refine wp_bind.mpr (wp_markProcessed fun d hd => ⟨⟨d, rfl⟩, ?_⟩)
      refine wp.bind ((ih { w with deduplicator := d }).mono ?_ fun _ _ _ h => h) ?_ ?_
      · rintro v ⟨d', rfl⟩
        exact ⟨d', rfl⟩
      · rintro rest v - ⟨kept, d', hr, rfl, hspec⟩
        cases hr
        exact ⟨⟨d', rfl⟩, e :: rest, d', rfl, rfl, hspec.keep hd⟩
      · rintro err v - ⟨kept, d', hr, -⟩
        cases hr
    · refine (ih w).mono (fun _ hv => hv) ?_
      rintro r v - ⟨kept, d', rfl, rfl, hspec⟩
      exact ⟨kept, d', rfl, rfl, hspec.skip hseen⟩

/-! ## The rest of a call -/

section Only

variable {es : List Effect}

theorem rollbackBoth_only (hb : Effect.books ∈ es) (hd : Effect.deletes ∈ es)
    (transactionId : String) : (rollbackBoth cfg transactionId).Only (Op.Within es) := by
  apply Prog.only_bind
  · intro _
    exact AtLeastOnceManager.rollback_only hb hd cfg transactionId
  · exact TransactionalCheckpoint.rollback_only hb hd transactionId

theorem convertToModelsEvent_only {S : Op → Prop} (huuid : S .newUuid) (hclock : S .clock)
    (e : Event) : (convertToModelsEvent e).Only S := by
  apply Prog.only_bind
  · rintro ⟨eventType, source, data⟩
    apply Prog.only_bind
    · intro id
      apply Prog.only_bind
      · intro timestamp
        trivial
      · exact Prog.only_perform.mpr hclock
    · exact Prog.only_perform.mpr huuid
  · trivial

theorem deadLetterFailed_only {S : Op → Prop} (huuid : S .newUuid) (hclock : S .clock)
    (hstore : ∀ entry source, S (.storeDeadLetter entry source)) (taskId : String)
    (errors : List String) (events : List Event) :
    (deadLetterFailed taskId errors events).Only S := by
  induction errors generalizing events with
  | nil => trivial
  | cons error errors ih =>
    cases events with
    | nil => trivial
    | cons e events =>
      apply Prog.only_bind
      · intro converted
        apply Prog.only_bind
        · intro _
          exact ih events
        · apply Prog.only_bind
          · intro id
            apply Prog.only_bind
            · intro createdAt
              exact Prog.only_perform.mpr (hstore _ _)
            · exact Prog.only_perform.mpr hclock
          · exact Prog.only_perform.mpr huuid
      · exact convertToModelsEvent_only huuid hclock e

theorem handOver_only {S : Op → Prop} (huuid : S .newUuid) (hclock : S .clock)
    (hstore : ∀ entry source, S (.storeDeadLetter entry source)) (errors : List String)
    (events : List Event) : (handOver task errors events).Only S :=
  Prog.only_ite (deadLetterFailed_only huuid hclock hstore task.taskId errors events) trivial

/-- The operations of the settlement of a failed answer. -/
abbrev failureEffects : List Effect := [.books, .deletes, .deadLetters]

/-- The operations of the settlement of any answer. -/
abbrev settlementEffects : List Effect := [.books, .saves, .deletes, .deadLetters, .moves]

/-- The destination has taken the whole batch. -/
def Answer.Clean (answer : Answer) : Prop :=
  ∃ response, answer = .response response ∧ response.failedCount = 0

theorem acked_of_clean {events : List Event} {delivery : Delivery} (log : List Obs)
    (hclean : Answer.Clean delivery.answer) {e : Event} (he : e ∈ events) :
    Acked (log ++ [.processed events delivery]) e := by
  obtain ⟨response, hanswer, hcount⟩ := hclean
  exact ⟨events, delivery, response, List.mem_append_right _ List.mem_cons_self,
    hanswer, hcount, he⟩

theorem settleAnswer_failure (transactionId : String) (position : Position) (events : List Event)
    {answer : Answer} (hanswer : ¬ Answer.Clean answer) :
    (settleAnswer cfg task transactionId position events answer).Only
      (Op.Within failureEffects) := by
  have hrollback : (rollbackBoth cfg transactionId).Only (Op.Within failureEffects) :=
    rollbackBoth_only (by decide) (by decide) transactionId
  cases answer with
  | response response =>
    rw [settleAnswer, if_neg fun hcount => hanswer ⟨response, rfl, hcount⟩]
    apply Prog.only_bind
    · intro _
      apply Prog.only_bind
      · intro _
        trivial
      · exact handOver_only (by decide) (by decide)
          (fun _ _ => by simp [Op.Within, Op.effect]) response.errors events
    · exact hrollback
  | error e =>
    apply Prog.only_bind
    · intro _
      trivial
    · exact hrollback
  | dropped | sendFailed =>
    apply Prog.only_bind
    · intro _
      trivial
    · exact hrollback

theorem settleAnswer_only (transactionId : String) (position : Position) (events : List Event)
    (answer : Answer) :
    (settleAnswer cfg task transactionId position events answer).Only
      (Op.Within settlementEffects) := by
  by_cases hanswer : Answer.Clean answer
  · obtain ⟨response, rfl, hcount⟩ := hanswer
    rw [settleAnswer, if_pos hcount]
    apply Prog.only_bind
    · intro _
      apply Prog.only_bind
      · intro _
        apply Prog.only_bind
        · intro _
          trivial
        · exact Prog.only_perform.mpr (by decide : Effect.moves ∈ settlementEffects)
      · exact AtLeastOnceManager.commit_only (by decide) (by decide) cfg transactionId
    · exact TransactionalCheckpoint.commit_only (by decide) (by decide) transactionId
  · exact (settleAnswer_failure transactionId position events hanswer).mono fun o ho =>
      ho.mono (by decide)

/-- Only an answer without failures lets a call return normally. -/
theorem wp_settleAnswer_ok (transactionId : String) (position : Position) (events : List Event)
    (answer : Answer) (w : World) :
    wp World.handler P (fun _ => True) (settleAnswer cfg task transactionId position events answer)
      (fun r _ => ∀ left, r = .ok left → left = [] ∧ Answer.Clean answer) w := by
  cases answer with
  | response response =>
    rw [settleAnswer]
    split
    · next hcount =>
      refine wp.bind (wp_true _ _) (fun _ _ _ _ => ?_) fun _ _ _ _ _ h => nomatch h
      refine wp.bind (wp_true _ _) (fun _ _ _ _ => ?_) fun _ _ _ _ _ h => nomatch h
      refine wp.bind (wp_true _ _) (fun _ _ _ _ => ?_) fun _ _ _ _ _ h => nomatch h
      simp [Answer.Clean, hcount]
    · refine wp.bind (wp_true _ _) (fun _ _ _ _ => ?_) fun _ _ _ _ _ h => nomatch h
      refine wp.bind (wp_true _ _) (fun _ _ _ _ => ?_) fun _ _ _ _ _ h => nomatch h
      simp [throwPipeline]
  | error e =>
    refine wp.bind (wp_true _ _) (fun _ _ _ _ => ?_) fun _ _ _ _ _ h => nomatch h
    simp
  | dropped | sendFailed =>
    refine wp.bind (wp_true _ _) (fun _ _ _ _ => ?_) fun _ _ _ _ _ h => nomatch h
    simp [throwPipeline]

end Only

/-! ## One call -/

/-- What a call with a position does to the batch, the window and the log. -/
structure CallOutcome (batch : List Event) (w : World) (r : Except Fault (List Event))
    (w' : World) : Prop where
  log : w.log <+: w'.log
  window : ∀ key, w'.deduplicator.contains key = true →
    w.deduplicator.contains key = true ∨ ∃ e ∈ batch, createDedupKeyFromEvent e = key
  left : ∀ left, r = .ok left → left = [] ∧ ∀ e ∈ batch,
    w.deduplicator.contains (createDedupKeyFromEvent e) = true ∨
    ∃ e' ∈ batch, createDedupKeyFromEvent e' = createDedupKeyFromEvent e ∧ Acked w'.log e'

/-- Neither the log nor the window has changed. -/
structure Untouched (w v : World) : Prop where
  log : v.log = w.log
  window : v.deduplicator = w.deduplicator

theorem Untouched.trans {w v v' : World} (h : Untouched w v) (h' : Untouched v v') :
    Untouched w v' :=
  ⟨h'.log.trans h.log, h'.window.trans h.window⟩

theorem Untouched.grown {w v : World} (h : Untouched w v) : w.log <+: v.log :=
  h.log ▸ List.prefix_refl _

theorem wp_untouched {α : Type} {p : TaskProg α}
    (hp : p.Only (Op.Within [.books, .saves, .deletes])) (w : World) :
    wp World.handler P (Untouched w) p (fun _ => Untouched w) w := by
  refine wp_only (fun o c v ho _ hv => ⟨?_, ?_⟩) hp ⟨rfl, rfl⟩
  · rw [World.handler_exec, World.log_frame (ho.mono (by decide)), hv.log]
  · rw [World.handler_exec, World.deduplicator_frame (ho.not (by decide)), hv.window]

/-- After the answer the log only grows, and the window stays. -/
theorem wp_settled (cfg : AtLeastOnceConfig) (task : TaskParams) (transactionId : String)
    (position : Position) (events : List Event) (answer : Answer) (w : World) :
    wp World.handler P (fun v => w.log <+: v.log ∧ v.deduplicator = w.deduplicator)
      (settleAnswer cfg task transactionId position events answer)
      (fun _ v => w.log <+: v.log ∧ v.deduplicator = w.deduplicator) w := by
  refine wp_only (fun o c v ho _ hv => ⟨?_, ?_⟩) (settleAnswer_only _ _ _ _)
    ⟨List.prefix_refl _, rfl⟩
  · exact hv.1.trans (World.log_prefix c v o)
  · rw [World.handler_exec, World.deduplicator_frame (ho.not (by decide)), hv.2]

theorem wp_deliver (transactionId : String) (position : Position) (kept : List Event) (w : World) :
    wp World.handler P (fun _ => True) (deliver cfg task transactionId position kept)
      (fun r v => w.log <+: v.log ∧ v.deduplicator = w.deduplicator ∧
        ∀ left, r = .ok left → left = [] ∧ ∀ e ∈ kept, Acked v.log e) w := by
  have hprepare := wp_untouched (P := P)
    (TransactionalCheckpoint.prepare_only (by decide) (by decide) transactionId) w
  refine wp.bind (hprepare.mono (fun _ _ => trivial) fun _ _ hv _ => hv) ?_ ?_
  · intro prepared v _ hv
    cases prepared with
    | false =>
      have hrollback := wp_untouched (P := P)
        (AtLeastOnceManager.rollback_only (by decide) (by decide) cfg transactionId) v
      refine wp.bind (hrollback.mono (fun _ _ => trivial) fun _ _ hv' _ => hv') ?_ ?_
      · intro _ v' _ hv'
        exact ⟨trivial, (hv.trans hv').grown, (hv.trans hv').window, fun _ h => nomatch h⟩
      · intro err v' _ hv'
        exact ⟨(hv.trans hv').grown, (hv.trans hv').window, fun _ h => nomatch h⟩
    | true =>
      refine ⟨trivial, fun c _ => ?_⟩
      have hsettled := (wp_settled (P := P) cfg task transactionId position kept
        (c.delivery kept).answer (v.observe (.processed kept (c.delivery kept)))).and
        (wp_settleAnswer_ok transactionId position kept _ _)
      refine hsettled.mono (fun _ _ => trivial) ?_
      rintro r v' - ⟨⟨hlog, hwindow⟩, hok⟩
      have hgrown : w.log <+: v'.log := by
        rw [← hv.log]
        exact (List.prefix_append _ _).trans hlog
      refine ⟨hgrown, hwindow.trans hv.window, fun left hr => ?_⟩
      obtain ⟨hnil, hclean⟩ := hok left hr
      exact ⟨hnil, fun e he => (acked_of_clean v.log hclean he).mono hlog⟩
  · intro err v _ hv
    exact ⟨hv.grown, hv.window, fun _ h => nomatch h⟩

theorem CallOutcome.failed {batch : List Event} {w v : World} (err : Fault)
    (hv : Untouched w v) : CallOutcome batch w (.error err) v :=
  ⟨hv.grown, fun _ hkey => Or.inl (hv.window ▸ hkey), fun _ h => nomatch h⟩

/-- **One call on a batch whose last event has a position.** -/
theorem wp_processBatchWithAtLeastOnce {batch : List Event} {last : Event} {position : Position}
    (hlast : batch.getLast? = some last) (hpos : extractPositionFromEvent last = some position)
    (w : World) :
    wp World.handler P (fun _ => True) (processBatchWithAtLeastOnce cfg task batch)
      (CallOutcome batch w) w := by
  unfold processBatchWithAtLeastOnce
  simp only [hlast, hpos]
  have hbegin := wp_untouched (P := P)
    (AtLeastOnceManager.beginTransaction_only (by decide) cfg task.taskId) w
  refine wp.bind (hbegin.mono (fun _ _ => trivial) fun _ _ hv _ => hv) ?_
    fun err v _ hv => .failed err hv
  intro transactionId v _ hv
  have hbegin' := wp_untouched (P := P) (TransactionalCheckpoint.beginTransaction_only (by decide)
    transactionId task.taskId position) v
  refine wp.bind (hbegin'.mono (fun _ _ => trivial) fun _ _ hv' _ => hv') ?_
    fun err v' _ hv' => .failed err (hv.trans hv')
  intro _ v' _ hv'
  have hbegun : Untouched w v' := hv.trans hv'
  refine wp.bind ((wp_deduplicate batch v').mono (fun _ _ => trivial) fun _ _ _ h => h) ?_ ?_
  · rintro kept _ - ⟨_, d, hr, rfl, hspec⟩
    cases hr
    rw [hbegun.window] at hspec
    -- whatever the window has gained is a key of the batch
    have hmarked : ∀ key, d.contains key = true → w.deduplicator.contains key = true ∨
        ∃ e ∈ batch, createDedupKeyFromEvent e = key := fun key hkey =>
      (hspec.window key hkey).imp_right fun ⟨e, he, hk⟩ => ⟨e, hspec.sub e he, hk⟩
    split
    · next hnil =>
      subst hnil
      refine ⟨trivial, ⟨hbegun.grown, hmarked, fun left hr => ?_⟩⟩
      cases hr
      exact ⟨rfl, fun e he => Or.inl ((hspec.covered e he).resolve_right (by simp))⟩
    · refine (wp_deliver transactionId position kept _).mono (fun _ h => h) ?_
      rintro r v'' - ⟨hlog', hwindow', hok⟩
      refine ⟨hbegun.grown.trans hlog', fun key hkey => ?_, fun left hr => ?_⟩
      · rw [hwindow'] at hkey
        exact hmarked key hkey
      obtain ⟨hnil, hacked⟩ := hok left hr
      refine ⟨hnil, fun e he => (hspec.covered e he).imp_right ?_⟩
      rintro ⟨e', he', hkey⟩
      exact ⟨e', hspec.sub e' he', hkey, hacked e' he'⟩
  · rintro err v'' - ⟨_, d, hr, -⟩
    cases hr

end PipelineOrchestrator

end MeiliBridge
