import MeiliBridge.Orchestrator.AtLeastOnce

/-!
# The stored checkpoint and what has been delivered

The process may crash anywhere in `process_batch`; after a restart `start()` takes the position of
whatever record the task has in the storage. `prepare` writes that record before the destination
has answered, and `start()` does not look at its `committed` mark, so a crash in between resumes
after events that were never delivered. `resume_not_ahead` proves that this is all that goes wrong
in the runs whose calls are sound: a crash that leaves no record, or a record not marked as
uncommitted, resumes before every event that is not acknowledged.
-/

set_option autoImplicit false

namespace MeiliBridge

open Interaction Trans PipelineOrchestrator

/-! ## Resuming -/

/-- The position `start()` takes for a task from `load_checkpoint`: after a restart nothing is
pending in the checkpoint manager, and the record in the storage answers. -/
def resumePosition (w : World) (taskId : String) : Option Position :=
  (w.storage.lookup taskId).map (·.position)

/-- The task resumes before every event received that is not acknowledged. -/
def NotAhead (taskId : String) (received : List Event) (w : World) : Prop :=
  ∀ resume, resumePosition w taskId = some resume →
    ∀ e ∈ received, ∀ position, extractPositionFromEvent e = some position →
      ¬ Acked w.log e → ¬ resume.AtOrAfter position

/-- The task's record is that of a transaction which is prepared but not committed. -/
def PreparedOnly (taskId : String) (w : World) : Prop :=
  ∃ cp, w.storage.lookup taskId = some cp ∧ cp.committed = some false

/-- The pipeline of a task, or what is left after a crash: what it had received, and the world. -/
inductive PipelineState where
  | up (s : TaskState)
  | down (received : List Event) (w : World)

inductive PipelineLabel where
  | run (l : TaskLabel)
  | crash (w : World)

/-- A task whose process crashes at some point, in a call or between two calls. -/
def crashMachine (task : TaskParams) : Machine PipelineState PipelineLabel where
  init t := ∃ s, (taskMachine task).init s ∧ t = .up s
  step t l t' :=
    match t, l with
    | .up s, .run l => ∃ s', (taskMachine task).step s l s' ∧ t' = .up s'
    | .up s, .crash w =>
      (w = s.world ∨ s.running = true ∧
        Visits World.handler (fun _ => True) (processBatch task s.batch) s.world w) ∧
      t' = .down s.offered w
    | .down _ _, _ => False

/-- An event received comes after the record in the storage, unless that is a prepared one; the
calls are sound for acknowledged events; and no crash leaves a record that is only prepared. -/
def CrashSafe (taskId : String) : PipelineState → PipelineLabel → Prop
  | .up s, .run (.receive e) => ¬ PreparedOnly taskId s.world →
    ∀ resume, resumePosition s.world taskId = some resume →
      ∀ position, extractPositionFromEvent e = some position → position.isAfter resume = true
  | .up s, .run .process => Sound Acked s .process
  | .up s, .crash w => ¬ PreparedOnly taskId w ∧ (w = s.world ∨ Sound Acked s .process)
  | .down _ _, _ => True

theorem Lasting.refl : Lasting Acked where
  acked h := h
  grow := Acked.mono

/-- What holds at every point of a call: the record is a prepared one, or the task would not
resume after an event that is not acknowledged. -/
def Tentative (taskId : String) (received : List Event) (w : World) : Prop :=
  PreparedOnly taskId w ∨ NotAhead taskId received w

section

variable {taskId : String} {received : List Event} {w w' : World}

theorem NotAhead.mono (h : NotAhead taskId received w) (hlog : w.log <+: w'.log)
    (hstored : w'.storage.lookup taskId = w.storage.lookup taskId) :
    NotAhead taskId received w' := by
  intro resume hresume e he position hpos hnot
  rw [resumePosition, hstored] at hresume
  exact h resume hresume e he position hpos fun hacked => hnot (hacked.mono hlog)

theorem NotAhead.of_none (h : w.storage.lookup taskId = none) : NotAhead taskId received w := by
  intro resume hresume
  simp [resumePosition, h] at hresume

theorem NotAhead.of_acked (h : ∀ e ∈ received, Acked w.log e) : NotAhead taskId received w :=
  fun _ _ e he _ _ hnot => absurd (h e he) hnot

theorem Tentative.mono (h : Tentative taskId received w) (hlog : w.log <+: w'.log)
    (hstored : w'.storage.lookup taskId = w.storage.lookup taskId) :
    Tentative taskId received w' := by
  rcases h with ⟨cp, hcp, hcommitted⟩ | h
  · exact Or.inl ⟨cp, hstored.trans hcp, hcommitted⟩
  · exact Or.inr (h.mono hlog hstored)

theorem exec_storage_delete (taskId : String) (c : Choice) (w : World) (other : String) :
    ((w.exec c (.deleteCheckpoint other)).2.storage.lookup taskId = none) ∨
    (w.exec c (.deleteCheckpoint other)).2.storage.lookup taskId = w.storage.lookup taskId := by
  have herase : (w.storage.erase other).lookup taskId = none ∨
      (w.storage.erase other).lookup taskId = w.storage.lookup taskId := by
    by_cases h : taskId = other
    · exact Or.inl (by rw [h, AList.lookup_erase])
    · exact Or.inr (AList.lookup_erase_ne h)
  simp only [World.exec]
  cases c.storage other with
  | succeeds => exact herase
  | fails e applied =>
    cases applied
    · exact Or.inr rfl
    · exact herase

/-- Only a save that marks its record as committed can put the checkpoint ahead. -/
theorem Tentative.exec {c : Choice} {o : Op} (h : Tentative taskId received w)
    (ho : ¬ o.Within [.saves]) : Tentative taskId received (w.exec c o).2 := by
  have hlog := World.log_prefix c w o
  cases o with
  | saveCheckpoint cp => exact absurd List.mem_cons_self ho
  | deleteCheckpoint other =>
    rcases exec_storage_delete taskId c w other with hnone | hsame
    · exact Or.inr (.of_none hnone)
    · exact h.mono hlog hsame
  | _ => exact h.mono hlog (by rw [World.storage_frame (by simp [Op.Within, Op.effect])])

theorem Tentative.save {c : Choice} {cp : Checkpoint} (h : Tentative taskId received w)
    (hcp : cp.committed = some false) :
    Tentative taskId received (w.exec c (.saveCheckpoint cp)).2 := by
  have hsaved : Tentative taskId received
      { w with storage := w.storage.insert cp.taskId cp } := by
    by_cases htask : taskId = cp.taskId
    · exact Or.inl ⟨cp, htask ▸ AList.lookup_insert _, hcp⟩
    · exact h.mono (List.prefix_refl _) (AList.lookup_insert_ne htask)
  simp only [World.exec]
  cases c.storage cp.taskId with
  | succeeds => exact hsaved
  | fails e applied =>
    cases applied
    · exact h
    · exact hsaved

variable {P : Choice → Prop}

theorem wp_tentative {α : Type} {p : TaskProg α} (h : Tentative taskId received w)
    (hp : p.Only fun o => ¬ o.Within [.saves]) :
    wp World.handler P (Tentative taskId received) p (fun _ => Tentative taskId received) w :=
  wp_only (fun _ _ _ ho _ hv => hv.exec ho) hp h

theorem wp_prepare_tentative (transactionId : String) (h : Tentative taskId received w) :
    wp World.handler P (Tentative taskId received) (TransactionalCheckpoint.prepare transactionId)
      (fun _ => Tentative taskId received) w := by
  refine wp_only ?_ (TransactionalCheckpoint.prepare_prepares transactionId) h
  rintro o c v (ho | ⟨cp, rfl, hcp⟩) _ hv
  · exact hv.exec (by simp [Op.Within, ho])
  · exact hv.save hcp

variable {cfg : AtLeastOnceConfig} {task : TaskParams}

/-- The settlement of an answer: a clean one has acknowledged everything received, and after any
other the only change to the storage is a deletion. -/
theorem wp_settleAnswer_tentative (transactionId : String) (position : Position)
    (kept : List Event) {answer : Answer} (h : Tentative taskId received w)
    (hclean : Answer.Clean answer → ∀ e ∈ received, Acked w.log e) :
    wp World.handler P (Tentative taskId received)
      (settleAnswer cfg task transactionId position kept answer)
      (fun _ => Tentative taskId received) w := by
  by_cases hanswer : Answer.Clean answer
  · have hall : ∀ v : World, (∀ e ∈ received, Acked v.log e) → Tentative taskId received v :=
      fun v hv => Or.inr (.of_acked hv)
    refine (wp_only ?_ (settleAnswer_only transactionId position kept answer)
      (hclean hanswer)).mono hall fun _ v _ hv => hall v hv
    exact fun o c v _ _ hv e he => (hv e he).mono (World.log_prefix c v o)
  · exact wp_tentative h ((settleAnswer_failure transactionId position kept hanswer).mono
      fun o ho => ho.not (by decide))

theorem wp_deliver_tentative (transactionId : String) (position : Position) (kept : List Event)
    (h : Tentative taskId received w)
    (hkept : ∀ log, (∀ e ∈ kept, Acked log e) → w.log <+: log → ∀ e ∈ received, Acked log e) :
    wp World.handler P (Tentative taskId received) (deliver cfg task transactionId position kept)
      (fun _ => Tentative taskId received) w := by
  have hprepare := (wp_prepare_tentative (P := P) transactionId h).and
    (wp_untouched (TransactionalCheckpoint.prepare_only (by decide) (by decide) transactionId) w)
  refine wp.bind (hprepare.mono (fun _ hv => hv.1) fun _ _ _ hv => hv) ?_ fun _ _ hv _ => hv
  rintro prepared v hv ⟨-, hsame⟩
  cases prepared with
  | false =>
    have hrollback : (AtLeastOnceManager.rollback cfg transactionId).Only
        (Op.Within failureEffects) :=
      AtLeastOnceManager.rollback_only (by decide) (by decide) cfg transactionId
    exact wp.bind (wp_tentative hv (hrollback.mono fun o ho => ho.not (by decide)))
      (fun _ _ hv' _ => ⟨hv', hv'⟩) fun _ _ hv' _ => hv'
  | true =>
    refine ⟨hv, fun c _ => ?_⟩
    have hsent := hv.exec (c := c) (o := .processEvents kept) (fun h => nomatch h)
    refine wp_settleAnswer_tentative transactionId position kept hsent fun hclean => ?_
    refine hkept _ (fun e he => acked_of_clean v.log hclean he) ?_
    rw [← hsame.log]
    exact List.prefix_append _ _

/-- The parts of a call before the deduplication. -/
theorem wp_begin_tentative {α : Type} {p : TaskProg α} (hp : p.Only (Op.Within [.books]))
    (h : Tentative taskId received w) :
    wp World.handler P (Tentative taskId received) p
      (fun _ v => Tentative taskId received v ∧ Untouched w v) w :=
  ((wp_tentative h (hp.mono fun _ ho => ho.not (by decide))).and
    (wp_untouched (hp.mono fun _ ho => ho.mono (by decide)) w)).mono (fun _ hv => hv.1)
    fun _ _ _ hv => hv

/-- **A call keeps the record tentative at every point.** -/
theorem wp_call_tentative {batch : List Event} {last : Event} {position : Position}
    (hlast : batch.getLast? = some last) (hpos : extractPositionFromEvent last = some position)
    (h : Tentative taskId received w)
    (hreceived : ∀ e ∈ received, e ∈ batch ∨ Acked w.log e)
    (hseen : ∀ e ∈ batch, w.deduplicator.contains (createDedupKeyFromEvent e) = true →
      Acked w.log e)
    (hkeys : ∀ e ∈ batch, ∀ e' ∈ batch,
      createDedupKeyFromEvent e' = createDedupKeyFromEvent e → e' = e) :
    wp World.handler P (Tentative taskId received) (processBatchWithAtLeastOnce cfg task batch)
      (fun _ => Tentative taskId received) w := by
  unfold processBatchWithAtLeastOnce
  simp only [hlast, hpos]
  refine wp.bind (wp_begin_tentative (AtLeastOnceManager.beginTransaction_only (by decide) cfg
    task.taskId) h) ?_ fun _ _ hv _ => hv
  rintro transactionId v hv ⟨-, hsame⟩
  refine wp.bind (wp_begin_tentative (TransactionalCheckpoint.beginTransaction_only (by decide)
    transactionId task.taskId position) hv) ?_ fun _ _ hv' _ => hv'
  rintro _ v' hv' ⟨-, hsame'⟩
  have hbegun : Untouched w v' := hsame.trans hsame'
  have hstored : ∀ d, Tentative taskId received { v' with deduplicator := d } := fun d =>
    hv'.mono (List.prefix_refl _) rfl
  refine wp.bind ((wp_deduplicate batch v').mono ?_ fun _ _ _ hr => hr) ?_ fun _ _ hv'' _ => hv''
  · rintro _ ⟨d, rfl⟩
    exact hstored d
  · rintro kept _ - ⟨_, d, hr, rfl, hspec⟩
    cases hr
    rw [hbegun.window] at hspec
    split
    · exact ⟨hstored d, hstored d⟩
    · refine wp_deliver_tentative transactionId position kept (hstored d) ?_
      intro log hacked hlog e he
      have hgrown : w.log <+: log := hbegun.grown.trans hlog
      -- what is dropped as a duplicate was acknowledged before or is the same event of this batch
      rcases hreceived e he with hbatch | hold
      · rcases hspec.covered e hbatch with hdup | ⟨e', he', hkey⟩
        · exact (hseen e hbatch hdup).mono hgrown
        · obtain rfl := hkeys e hbatch e' (hspec.sub e' he') hkey
          exact hacked e' he'
      · exact hold.mono hgrown

theorem wp_processBatch_tentative {s : TaskState} (htask : task.atLeastOnce = some cfg)
    (hinv : TaskInv Acked s) (hrun : s.running = true) (hsound : Sound Acked s .process)
    (h : Tentative taskId s.offered s.world) :
    wp World.handler P (Tentative taskId s.offered) (processBatch task s.batch)
      (fun _ => Tentative taskId s.offered) s.world := by
  by_cases hne : s.batch = []
  · rw [processBatch, if_pos hne]
    exact ⟨h, h⟩
  · obtain ⟨⟨last, position, hlast, hpos⟩, hkeys, -⟩ := hsound hne
    rw [processBatch, if_neg hne, htask]
    refine wp_bind.mpr (wp_attempt.mpr ?_)
    refine (wp_call_tentative hlast hpos h hinv.accounted
      (fun e he hseen => hinv.seen_good hrun hsound he hseen) hkeys).mono (fun _ hv => hv) ?_
    intro r v hv _
    cases r with
    | ok left => exact ⟨hv, hv⟩
    | error fault =>
      cases fault with
      | err e => exact ⟨hv, hv⟩
      | panic => exact ⟨hv, hv⟩

/-! ## Every crash -/

/-- What is known of the pipeline: before a crash the record is tentative, after one the task
resumes before everything that is not acknowledged. -/
def PipelineInv (taskId : String) : PipelineState → Prop
  | .up s => TaskInv Acked s ∧ Tentative taskId s.offered s.world
  | .down received w => NotAhead taskId received w

theorem Tentative.receive {s : TaskState} (h : Tentative taskId s.offered s.world) {e : Event}
    (he : CrashSafe taskId (.up s) (.run (.receive e))) :
    Tentative taskId (s.receive e).offered (s.receive e).world := by
  by_cases hprepared : PreparedOnly taskId s.world
  · exact Or.inl hprepared
  · have hnot := h.resolve_left hprepared
    refine Or.inr fun resume hresume e' he' position hpos hunacked => ?_
    rcases List.mem_append.mp he' with he' | he'
    · exact hnot resume hresume e' he' position hpos hunacked
    · obtain rfl := List.mem_singleton.mp he'
      exact Position.not_atOrAfter (he hprepared resume hresume position hpos)

theorem PipelineInv.step (htask : task.atLeastOnce = some cfg) {t t' : PipelineState}
    {l : PipelineLabel} (h : PipelineInv task.taskId t)
    (hs : ((crashMachine task).restrict (CrashSafe task.taskId)).step t l t') :
    PipelineInv task.taskId t' := by
  obtain ⟨hsafe, hstep⟩ := hs
  match t, l, h, hsafe, hstep with
  | .up s, .run (.receive e), h, hsafe, hstep =>
    obtain ⟨_, ⟨hrun, rfl⟩, rfl⟩ := hstep
    exact ⟨h.1.receive e, h.2.receive hsafe⟩
  | .up s, .run .process, h, hsafe, hstep =>
    obtain ⟨s', hs', rfl⟩ := hstep
    refine ⟨h.1.step (l := TaskLabel.process) .refl htask ⟨hsafe, hs'⟩, ?_⟩
    obtain ⟨hrun, r, w, hr, rfl⟩ := hs'
    have hend := (wp_iff.mp (wp_processBatch_tentative htask h.1 hrun hsafe h.2)).2 r w hr
    cases r <;> exact hend
  | .up s, .crash w, h, hsafe, hstep =>
    obtain ⟨hpoint, rfl⟩ := hstep
    suffices htentative : Tentative task.taskId s.offered w from
      htentative.resolve_left hsafe.1
    rcases hpoint with rfl | ⟨hrun, hvisit⟩
    · exact h.2
    · rcases hsafe.2 with rfl | hsound
      · exact h.2
      · exact (wp_iff.mp (wp_processBatch_tentative htask h.1 hrun hsound h.2)).1 w hvisit

/-- **A crash-safe run never resumes at or after an event that is not acknowledged.** -/
theorem resume_not_ahead (htask : task.atLeastOnce = some cfg)
    (h : ((crashMachine task).restrict (CrashSafe task.taskId)).Reachable (.down received w)) :
    NotAhead task.taskId received w := by
  have hinv : PipelineInv task.taskId (.down received w) := by
    refine h.invariant ?_ fun _ _ _ hi hs => hi.step htask hs
    rintro _ ⟨_, ⟨w₀, n, hw₀, rfl⟩, rfl⟩
    exact ⟨TaskInv.start hw₀, Or.inr (.of_acked fun e he => absurd he List.not_mem_nil)⟩
  exact hinv

end

/-- The next book, after one that has been delivered. -/
def bookFollowed : Event :=
  .cdc ⟨.create, "books", "public", [("id", .string "b2")], some (.postgreSQL "0/20")⟩

theorem resume_not_ahead_book :
    resumePosition bookDelivered.world "books" = some (.postgreSQL "0/10") ∧
    NotAhead "books" [bookInserted, bookFollowed] bookDelivered.world := by
  have hposition : resumePosition bookDelivered.world "books" = some (.postgreSQL "0/10") := by
    decide
  refine ⟨hposition, resume_not_ahead booksTask_atLeastOnce ?_⟩
  have hstart : ((crashMachine booksTask).restrict (CrashSafe "books")).Reachable
      (.up (.start freshWorld)) := .init ⟨_, ⟨freshWorld, 100, rfl, rfl⟩, rfl⟩
  have hreceived := hstart.step (l := PipelineLabel.run (.receive bookInserted))
    ⟨fun _ _ hresume => (nomatch hresume), _, taskMachine_receive rfl bookInserted, rfl⟩
  have hdelivered := hreceived.step (l := PipelineLabel.run .process)
    ⟨sound_bookInserted _, _, taskMachine_process rfl
      (answering (.response ⟨1, 0, some (.postgreSQL "0/10"), []⟩)), rfl⟩
  have hfollowed := hdelivered.step (l := PipelineLabel.run (.receive bookFollowed)) (by
    refine ⟨fun _ resume hresume position hpos => ?_, _, taskMachine_receive rfl bookFollowed, rfl⟩
    obtain rfl := Option.some.inj (hposition.symm.trans hresume)
    obtain rfl := Option.some.inj hpos
    decide)
  have hcommitted : (bookDelivered.world.storage.lookup booksTask.taskId).bind
      Checkpoint.committed = some true := by decide
  refine hfollowed.step (l := PipelineLabel.crash bookDelivered.world)
    ⟨⟨?_, Or.inl rfl⟩, Or.inl rfl, rfl⟩
  rintro ⟨cp, hcp, huncommitted⟩
  rw [hcp, Option.bind_some, huncommitted] at hcommitted
  cases hcommitted

/-- The process crashes after `prepare` has saved the record and before anything is sent. -/
def bookPrepared : World :=
  worldAfter World.handler (answering .dropped) 9 (processBatch booksTask [bookInserted]) freshWorld

theorem resume_not_always_before : ¬ ∀ (task : TaskParams) (cfg : AtLeastOnceConfig)
    (received : List Event) (w : World), task.atLeastOnce = some cfg →
      (crashMachine task).Reachable (.down received w) → NotAhead task.taskId received w := by
  intro h
  have hstart : (crashMachine booksTask).Reachable (.up (.start freshWorld)) :=
    .init ⟨_, ⟨freshWorld, 100, rfl, rfl⟩, rfl⟩
  have hreceived := hstart.step (l := PipelineLabel.run (.receive bookInserted))
    ⟨_, taskMachine_receive rfl bookInserted, rfl⟩
  have hcrashed := hreceived.step (l := PipelineLabel.crash bookPrepared)
    ⟨Or.inr ⟨rfl, visits_worldAfter trivial 9 _ _⟩, rfl⟩
  have hresume : resumePosition bookPrepared "books" = some (.postgreSQL "0/10") := by decide
  have hlog : bookPrepared.log = [] := by decide
  refine h booksTask _ _ _ rfl hcrashed _ hresume bookInserted List.mem_cons_self _ rfl
    ?_ (Or.inl rfl)
  rintro ⟨events, delivery, response, hmem, -⟩
  rw [hlog] at hmem
  cases hmem

end MeiliBridge
