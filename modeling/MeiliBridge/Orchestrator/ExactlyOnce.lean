import MeiliBridge.Lib.Rereading
import MeiliBridge.Orchestrator.AtLeastOnce
import MeiliBridge.Orchestrator.SharedDeduplication
import MeiliBridge.Orchestrator.StreamBatches

/-!
# Exactly once, of a stream that goes back

The stream of a task may read its changes again, as `WalConsumer` does when the slot was not
advanced; the deduplicator is there so that they are not sent again. `Seen` is what it amounts to:
the window holds the changes up to some point of the log, and what was sent is among them, each once
and in the order of the log. A failed call leaves its events marked as seen without having sent
them, so that only the runs without one send everything.
-/

set_option autoImplicit false

namespace MeiliBridge

open Interaction Trans SlidingWindow Rereading PipelineOrchestrator
open SharedDeduplication (Holds capacity capacity_pos keyOf)

/-! ## One call, with the window it finds -/

/-- The window holds the last of these events, which have entered one by one. -/
structure Marks (d : EventDeduplicator) (n : Nat) (entries : List Event) : Prop where
  holds : Holds d n (entries.map keyOf)
  entered : Entered (capacity n) (entries.map keyOf)

theorem Marks.new (n : Nat) : Marks (.new n) n [] := ⟨.new n, .nil⟩

/-- All events that were sent, in this order. -/
def sentEvents (log : List Obs) : List Event := (sentBatches log).flatten

namespace PipelineOrchestrator

variable {P : Choice → Prop} {cfg : AtLeastOnceConfig} {task : TaskParams} {n : Nat}
  {entries : List Event}

/-- **The deduplication loop, exactly**: it keeps what the window lets in. -/
theorem wp_deduplicate_marks (henabled : cfg.enabled = true) (batch : List Event) (w : World)
    (h : Marks w.deduplicator n entries) :
    wp World.handler P (fun _ => True) (deduplicate cfg batch)
      (fun r v => ∃ kept d, r = .ok kept ∧ v = { w with deduplicator := d } ∧
        Marks d n (kept.reverse ++ entries) ∧
        kept.reverse ++ entries = batch.foldl (accept keyOf (capacity n)) entries) w := by
  induction batch generalizing w entries with
  | nil => exact ⟨trivial, [], w.deduplicator, rfl, rfl, h, rfl⟩
  | cons e batch ih =>
    rw [SharedDeduplication.deduplicate_cons henabled]
    refine ⟨trivial, fun c _ => ?_⟩
    show wp World.handler P _ (if w.deduplicator.contains (keyOf e) then _ else _) _ w
    have hseen := h.holds.contains (keyOf e)
    rw [List.foldl_cons, accept]
    by_cases hmem : keyOf e ∈ (entries.map keyOf).take (capacity n)
    · rw [if_pos (hseen.mpr hmem), if_pos hmem]
      exact ih w h
    · rw [if_neg (mt hseen.mp hmem), if_neg hmem]
      have hadded : Marks (w.deduplicator.add (keyOf e)) n (e :: entries) :=
        ⟨h.holds.add h.entered hmem, .cons h.entered hmem⟩
      refine ⟨trivial, fun c _ => ?_⟩
      refine wp.bind (ih { w with deduplicator := w.deduplicator.add (keyOf e) } hadded) ?_ ?_
      · rintro rest v - ⟨kept, d, hr, rfl, hmarks, hkept⟩
        cases hr
        refine ⟨trivial, e :: rest, d, rfl, rfl, ?_, ?_⟩
        · simpa using hmarks
        · simpa using hkept
      · rintro fault v - ⟨kept, d, hr, -⟩
        cases hr

/-- A delivery sends its events once, or it fails before. -/
theorem wp_deliver_sends (transactionId : String) (position : Position) (kept : List Event)
    (w : World) :
    wp World.handler P (fun _ => True) (deliver cfg task transactionId position kept)
      (fun r v => (sentEvents v.log = sentEvents w.log ∨
          sentEvents v.log = sentEvents w.log ++ kept) ∧
        ∀ left, r = .ok left → sentEvents v.log = sentEvents w.log ++ kept) w := by
  have hprepare := wp_untouched (P := P)
    (TransactionalCheckpoint.prepare_only (by decide) (by decide) transactionId) w
  refine wp.bind (hprepare.mono (fun _ _ => trivial) fun _ _ hv _ => hv) ?_ ?_
  · intro prepared v _ hv
    cases prepared with
    | false =>
      have hrollback := wp_untouched (P := P)
        (AtLeastOnceManager.rollback_only (by decide) (by decide) cfg transactionId) v
      refine wp.bind (hrollback.mono (fun _ _ => trivial) fun _ _ hv' _ => hv') ?_ ?_
      · intro _ v' _ hv'
        refine ⟨trivial, .inl ?_, fun _ h => nomatch h⟩
        rw [(hv.trans hv').log]
      · intro err v' _ hv'
        refine ⟨.inl ?_, fun _ h => nomatch h⟩
        rw [(hv.trans hv').log]
    | true =>
      refine ⟨trivial, fun c _ => ?_⟩
      -- what is done after the answer sends nothing more
      have hframe : ∀ o c' (v' : World), Op.Within settlementEffects o → P c' →
          sentBatches v'.log =
            sentBatches (v.observe (.processed kept (c.delivery kept))).log →
          sentBatches (World.handler.exec o c' v').2.log =
            sentBatches (v.observe (.processed kept (c.delivery kept))).log := by
        intro o c' v' ho _ hv'
        rw [World.handler_exec, sentBatches_frame (ho.not (by decide)), hv']
      have honly : (settleAnswer cfg task transactionId position kept (c.delivery kept).answer).Only
          (Op.Within settlementEffects) := settleAnswer_only transactionId position kept _
      have hsettled := (wp_only hframe honly rfl).and
        (wp_settleAnswer_ok transactionId position kept _ _)
      refine hsettled.mono (fun _ _ => trivial) ?_
      rintro r v' - ⟨hsent, hok⟩
      rw [sentBatches_observe, hv.log] at hsent
      -- a command that the channel does not take is not sent
      by_cases hfailed : (c.delivery kept).answer = .sendFailed
      · rw [Obs.sentBatch, if_pos hfailed] at hsent
        refine ⟨.inl ?_, ?_⟩
        · rw [sentEvents, hsent]
          simp [sentEvents]
        · intro left hr
          obtain ⟨-, response, hanswer, -⟩ := hok left hr
          rw [hfailed] at hanswer
          cases hanswer
      · rw [Obs.sentBatch, if_neg hfailed] at hsent
        have hall : sentEvents v'.log = sentEvents w.log ++ kept := by
          rw [sentEvents, hsent]
          simp [sentEvents]
        exact ⟨.inr hall, fun _ _ => hall⟩
  · intro err v _ hv
    refine ⟨.inl ?_, fun _ h => nomatch h⟩
    rw [hv.log]

end PipelineOrchestrator

/-- What a call makes of the window and of what was sent. -/
inductive Turned (n : Nat) (entries batch : List Event) (w : World)
    (r : Except Fault (List Event)) (w' : World) : Prop
  /-- it has failed before it has looked at the events -/
  | untouched (hr : ∀ left, r ≠ .ok left) (h : Untouched w w')
  | deduplicated (kept : List Event)
      (hkept : kept.reverse ++ entries = batch.foldl (accept keyOf (capacity n)) entries)
      (hmarks : Marks w'.deduplicator n (kept.reverse ++ entries)) (hlog : w.log <+: w'.log)
      (hsent : sentEvents w'.log = sentEvents w.log ∨
        sentEvents w'.log = sentEvents w.log ++ kept)
      (hok : ∀ left, r = .ok left → left = [] ∧ sentEvents w'.log = sentEvents w.log ++ kept ∧
        ∀ e ∈ kept, Acked w'.log e)

namespace PipelineOrchestrator

variable {P : Choice → Prop} {cfg : AtLeastOnceConfig} {task : TaskParams} {n : Nat}
  {entries : List Event}

theorem wp_processBatchWithAtLeastOnce_turned (henabled : cfg.enabled = true) {batch : List Event}
    {last : Event} {position : Position} (hlast : batch.getLast? = some last)
    (hpos : extractPositionFromEvent last = some position) (w : World)
    (h : Marks w.deduplicator n entries) :
    wp World.handler P (fun _ => True) (processBatchWithAtLeastOnce cfg task batch)
      (Turned n entries batch w) w := by
  unfold processBatchWithAtLeastOnce
  simp only [hlast, hpos]
  have hbegin := wp_untouched (P := P)
    (AtLeastOnceManager.beginTransaction_only (by decide) cfg task.taskId) w
  refine wp.bind (hbegin.mono (fun _ _ => trivial) fun _ _ hv _ => hv) ?_
    fun err v _ hv => .untouched nofun hv
  intro transactionId v _ hv
  have hbegin' := wp_untouched (P := P) (TransactionalCheckpoint.beginTransaction_only (by decide)
    transactionId task.taskId position) v
  refine wp.bind (hbegin'.mono (fun _ _ => trivial) fun _ _ hv' _ => hv') ?_
    fun err v' _ hv' => .untouched nofun (hv.trans hv')
  intro _ v' _ hv'
  have hbegun : Untouched w v' := hv.trans hv'
  have hmarks : Marks v'.deduplicator n entries := hbegun.window ▸ h
  -- until here nothing is marked and nothing is sent
  refine wp.bind (wp_deduplicate_marks henabled batch v' hmarks) ?_ ?_
  · rintro kept _ - ⟨_, d, hr, rfl, hmarked, hkept⟩
    cases hr
    split
    · next hnil =>
      -- every event was a duplicate, so the batch is done without a command
      subst hnil
      have hsame : sentEvents v'.log = sentEvents w.log := by rw [hbegun.log]
      refine ⟨trivial, .deduplicated [] hkept hmarked hbegun.grown (.inl hsame) ?_⟩
      intro left hr
      cases hr
      refine ⟨rfl, ?_, fun e he => absurd he List.not_mem_nil⟩
      rw [List.append_nil]
      exact hsame
    · refine ((wp_deliver transactionId position kept _).and
        (wp_deliver_sends transactionId position kept _)).mono (fun _ _ => trivial) ?_
      rintro r v'' - ⟨⟨hlog, hwindow, hacked⟩, hsent, hall⟩
      dsimp only at hlog hwindow hsent hall
      rw [← hwindow] at hmarked
      rw [hbegun.log] at hlog hsent hall
      refine .deduplicated kept hkept hmarked hlog hsent ?_
      intro left hr
      obtain ⟨hnil, hgood⟩ := hacked left hr
      exact ⟨hnil, hall left hr, hgood⟩
  · rintro err v'' - ⟨_, d, hr, -⟩
    cases hr

theorem wp_processBatch_turned (htask : task.atLeastOnce = some cfg) (henabled : cfg.enabled = true)
    {batch : List Event} {last : Event} {position : Position} (hlast : batch.getLast? = some last)
    (hpos : extractPositionFromEvent last = some position) (w : World)
    (h : Marks w.deduplicator n entries) :
    wp World.handler P (fun _ => True) (processBatch task batch)
      (fun r v => ∃ r₀, Turned n entries batch w r₀ v ∧ r = afterCall batch r₀) w := by
  have hne : batch ≠ [] := fun h => by simp [h] at hlast
  rw [processBatch, if_neg hne, htask]
  refine wp_bind.mpr (wp_attempt.mpr ?_)
  refine (wp_processBatchWithAtLeastOnce_turned henabled hlast hpos w h).mono (fun _ h => h) ?_
  intro r v _ hv
  cases r with
  | ok left => exact ⟨trivial, _, hv, rfl⟩
  | error fault =>
    cases fault with
    | err | panic => exact ⟨trivial, _, hv, rfl⟩

end PipelineOrchestrator

/-! ## A task on a stream that goes back -/

namespace ReplayedTask

/-- A task and the stream it reads: the place of the stream in its log, and how far it has ever
been. -/
structure State where
  task : TaskState
  next : Nat
  furthest : Nat

inductive Label where
  | read
  | goBack (place : Nat)
  | process

inductive Step (task : TaskParams) (log : List Event) : State → Label → State → Prop
  | read {s : State} {e : Event} {t : TaskState} (he : log[s.next]? = some e)
      (h : (taskMachine task).step s.task (.receive e) t) :
      Step task log s .read ⟨t, s.next + 1, max s.furthest (s.next + 1)⟩
  /-- the connection is lost or the slot was not advanced, and the stream reads again -/
  | goBack {s : State} {place : Nat} (hplace : place ≤ s.next) :
      Step task log s (.goBack place) { s with next := place }
  | process {s : State} {t : TaskState} (h : (taskMachine task).step s.task .process t) :
      Step task log s .process { s with task := t }

/-- A task with a new window of `n`, at the beginning of the log. -/
def machine (task : TaskParams) (n : Nat) (log : List Event) : Machine State Label where
  init s := ∃ w, w.deduplicator = .new n ∧ w.log = [] ∧ s = ⟨.start w, 0, 0⟩
  step := Step task log

/-- The stream goes back by no more events than the window holds, and a batch that a call has kept
is not tried again when its events are further back than that. -/
def WithinWindow (n : Nat) (log : List Event) (s : State) : Label → Prop
  | .read => True
  | .goBack place => s.furthest ≤ place + capacity n
  | .process => ∀ e ∈ s.task.batch, e ∈ s.task.kept → ∀ i, log[i]? = some e →
      s.furthest ≤ i + capacity n

/-- The window has seen the first `f` events of the log. -/
structure Seen (n : Nat) (log : List Event) (s : State) (f : Nat) : Prop where
  ahead : s.next ≤ s.furthest
  back : s.furthest ≤ s.next + capacity n
  reached : f ≤ s.furthest
  sent : (sentEvents s.task.world.log).Sublist (log.take f)
  marks : s.task.running = true → Marks s.task.world.deduplicator n (log.take f).reverse
  /-- as long as no call has failed -/
  all : s.task.running = true → s.task.kept = [] →
    sentEvents s.task.world.log = log.take f ∧ ∀ e ∈ log.take f, Acked s.task.world.log e
  /-- first what a call has kept, and then what has come since -/
  batch : s.task.running = true → ∃ m g old new, s.task.batch = old ++ new ∧ old ⊆ s.task.kept ∧
    Reads log m f old g ∧ Reads log (capacity n) g new s.furthest

variable {task : TaskParams} {cfg : AtLeastOnceConfig} {n f : Nat} {log : List Event}
  {s s' : State} {l : Label}

theorem seen_start {w : World} (hwindow : w.deduplicator = .new n) (hlog : w.log = []) :
    Seen n log ⟨.start w, 0, 0⟩ 0 where
  ahead := Nat.le_refl 0
  back := Nat.zero_le _
  reached := Nat.le_refl 0
  sent := by
    show (sentEvents w.log).Sublist _
    rw [hlog]
    exact List.nil_sublist _
  marks _ := by
    show Marks w.deduplicator n _
    rw [hwindow]
    exact .new n
  all _ _ := by
    show sentEvents w.log = _ ∧ _
    rw [hlog]
    exact ⟨rfl, fun e he => absurd he List.not_mem_nil⟩
  batch _ := ⟨0, 0, [], [], rfl, List.nil_subset _, .nil, .nil⟩

theorem Seen.read (h : Seen n log s f) {e : Event} (he : log[s.next]? = some e) :
    Seen n log ⟨s.task.receive e, s.next + 1, max s.furthest (s.next + 1)⟩ f where
  ahead := Nat.le_max_right _ _
  back := by
    have hback := h.back
    have hpos := capacity_pos n
    dsimp only
    omega
  reached := Nat.le_trans h.reached (Nat.le_max_left _ _)
  sent := h.sent
  marks := h.marks
  all := h.all
  batch hrunning := by
    obtain ⟨m, g, old, new, hbatch, hkept, hold, hnew⟩ := h.batch hrunning
    refine ⟨m, g, old, new ++ [e], ?_, hkept, hold, hnew.append ?_⟩
    · show s.task.batch ++ [e] = _
      rw [hbatch, List.append_assoc]
    · rcases Nat.lt_or_eq_of_le h.ahead with hlt | heq
      · have hmax : max s.furthest (s.next + 1) = s.furthest := by omega
        rw [hmax]
        exact .again he hlt h.back .nil
      · have hmax : max s.furthest (s.next + 1) = s.furthest + 1 := by omega
        rw [hmax]
        rw [heq] at he
        exact .next he .nil

theorem Seen.goBack (h : Seen n log s f) {place : Nat} (hplace : place ≤ s.next)
    (hnear : s.furthest ≤ place + capacity n) : Seen n log { s with next := place } f :=
  ⟨Nat.le_trans hplace h.ahead, hnear, h.reached, h.sent, h.marks, h.all, h.batch⟩

/-- All of the batch is what the window has seen, or what comes next. -/
theorem Seen.reads (h : Seen n log s f) (hrunning : s.task.running = true)
    (hok : WithinWindow n log s .process) : Reads log (capacity n) f s.task.batch s.furthest := by
  obtain ⟨m, g, old, new, hbatch, hkept, hold, hnew⟩ := h.batch hrunning
  rw [hbatch]
  refine .append (hold.within ?_) hnew
  intro e he i hi
  have hnear := hok e (hbatch ▸ List.mem_append_left _ he) (hkept he) i hi
  exact Nat.le_trans hnew.le hnear

/-- What a call on the batch leaves behind. -/
theorem Seen.turned (h : Seen n log s f) (hkeys : (log.map createDedupKeyFromEvent).Nodup)
    (hrunning : s.task.running = true) (hreads : Reads log (capacity n) f s.task.batch s.furthest)
    (hne : s.task.batch ≠ []) {r : Except Fault (List Event)} {w : World}
    (hturned : Turned n (log.take f).reverse s.task.batch s.task.world r w) :
    ∃ f', Seen n log { s with task := s.task.settle w (afterCall s.task.batch r) } f' := by
  have hnone : s.task.kept ++ s.task.batch ≠ [] := by simp [hne]
  cases hturned with
  | untouched hr huntouched =>
    refine ⟨f, ?_⟩
    -- the call has failed before it touched the window, so the batch is still to be read
    match r with
    | .ok left => exact absurd rfl (hr left)
    | .error (.err err) =>
      refine ⟨h.ahead, h.back, h.reached, ?_, fun _ => ?_, fun _ hkept => absurd hkept hnone,
        fun _ => ?_⟩
      · show (sentEvents w.log).Sublist _
        rw [huntouched.log]
        exact h.sent
      · show Marks w.deduplicator n _
        rw [huntouched.window]
        exact h.marks hrunning
      · exact ⟨_, s.furthest, s.task.batch, [], (List.append_nil _).symm,
          List.subset_append_right _ _, hreads, .nil⟩
    | .error .panic =>
      refine ⟨h.ahead, h.back, h.reached, ?_, nofun, nofun, nofun⟩
      show (sentEvents w.log).Sublist _
      rw [huntouched.log]
      exact h.sent
  | deduplicated fresh hfresh hmarks hlog hsent hok =>
    -- the window has let in what is between the two places of the log
    rw [foldl_accept_reads hkeys hreads] at hfresh
    rw [hfresh] at hmarks
    have htake : log.take s.furthest = log.take f ++ fresh := by
      have hreverse := congrArg List.reverse hfresh
      rw [List.reverse_append, List.reverse_reverse, List.reverse_reverse,
        List.reverse_reverse] at hreverse
      exact hreverse.symm
    have hsublist : (sentEvents w.log).Sublist (log.take s.furthest) := by
      rw [htake]
      rcases hsent with hsent | hsent
      · rw [hsent]
        exact h.sent.trans (List.sublist_append_left _ _)
      · rw [hsent]
        exact h.sent.append (List.Sublist.refl _)
    refine ⟨s.furthest, ?_⟩
    match r with
    | .ok left =>
      obtain ⟨rfl, hall, hacked⟩ := hok left rfl
      refine ⟨h.ahead, h.back, Nat.le_refl _, hsublist, fun _ => hmarks,
        fun _ hkept => ?_, fun _ => ?_⟩
      · have hkept : s.task.kept = [] := by
          rw [← List.append_nil s.task.kept]
          exact hkept
        obtain ⟨hbefore, hackedBefore⟩ := h.all hrunning hkept
        refine ⟨?_, ?_⟩
        · show sentEvents w.log = _
          rw [hall, hbefore, htake]
        · intro e he
          rw [htake] at he
          rcases List.mem_append.mp he with he | he
          · exact (hackedBefore e he).mono hlog
          · exact hacked e he
      · exact ⟨0, s.furthest, [], [], rfl, List.nil_subset _, .nil, .nil⟩
    | .error (.err err) =>
      refine ⟨h.ahead, h.back, Nat.le_refl _, hsublist, fun _ => hmarks,
        fun _ hkept => absurd hkept hnone, fun _ => ?_⟩
      -- the batch is kept, and everything in it is marked by now
      exact ⟨_, s.furthest, s.task.batch, [], (List.append_nil _).symm,
        List.subset_append_right _ _, reads_again hreads.index, .nil⟩
    | .error .panic =>
      exact ⟨h.ahead, h.back, Nat.le_refl _, hsublist, nofun, nofun, nofun⟩

theorem Seen.process (h : Seen n log s f) (htask : task.atLeastOnce = some cfg)
    (henabled : cfg.enabled = true) (hkeys : (log.map createDedupKeyFromEvent).Nodup)
    (hpositions : ∀ e ∈ log, extractPositionFromEvent e ≠ none)
    (hok : WithinWindow n log s .process) {t : TaskState}
    (hs : (taskMachine task).step s.task .process t) :
    ∃ f', Seen n log { s with task := t } f' := by
  obtain ⟨hrunning, r, w, hr, rfl⟩ := hs
  have hreads := h.reads hrunning hok
  by_cases hne : s.task.batch = []
  · rw [hne, processBatch, if_pos rfl] at hr
    obtain ⟨rfl, rfl⟩ := hr
    refine ⟨f, h.ahead, h.back, h.reached, h.sent, h.marks, fun _ hkept => ?_, fun _ => ?_⟩
    · refine h.all hrunning ?_
      rw [← List.append_nil s.task.kept]
      exact hkept
    · rw [hne] at hreads
      exact ⟨0, f, [], [], rfl, List.nil_subset _, .nil, hreads⟩
  · obtain ⟨last, hlast⟩ : ∃ last, s.task.batch.getLast? = some last :=
      ⟨_, List.getLast?_eq_some_getLast hne⟩
    obtain ⟨i, -, hi⟩ := hreads.index last (List.mem_of_getLast? hlast)
    obtain ⟨position, hpos⟩ := Option.ne_none_iff_exists'.mp
      (hpositions last (List.mem_of_getElem? hi))
    obtain ⟨r₀, hturned, rfl⟩ := (wp_iff.mp (wp_processBatch_turned htask henabled hlast hpos
      s.task.world (h.marks hrunning))).2 r w hr
    exact h.turned hkeys hrunning hreads hne hturned

theorem reachable_seen (htask : task.atLeastOnce = some cfg) (henabled : cfg.enabled = true)
    (hkeys : (log.map createDedupKeyFromEvent).Nodup)
    (hpositions : ∀ e ∈ log, extractPositionFromEvent e ≠ none)
    (h : ((machine task n log).restrict (WithinWindow n log)).Reachable s) :
    ∃ f, Seen n log s f := by
  refine h.invariant (I := fun s => ∃ f, Seen n log s f) ?_ ?_
  · rintro s ⟨w, hwindow, hlog, rfl⟩
    exact ⟨0, seen_start hwindow hlog⟩
  · rintro s l s' ⟨f, hseen⟩ ⟨hok, hs⟩
    cases hs with
    | read he hreceive =>
      obtain ⟨-, rfl⟩ := hreceive
      exact ⟨f, hseen.read he⟩
    | goBack hplace => exact ⟨f, hseen.goBack hplace hok⟩
    | process hprocess => exact hseen.process htask henabled hkeys hpositions hok hprocess

/-- Where no call has failed, what was sent is all that the stream has read. -/
theorem Seen.sent_all (h : Seen n log s f) (hrunning : s.task.running = true)
    (hkept : s.task.kept = []) (hbatch : s.task.batch = []) :
    sentEvents s.task.world.log = log.take s.furthest ∧
      ∀ e ∈ log.take s.furthest, Acked s.task.world.log e := by
  have hreached : f = s.furthest := by
    obtain ⟨m, g, old, new, hboth, -, hold, hnew⟩ := h.batch hrunning
    rw [hbatch] at hboth
    obtain ⟨rfl, rfl⟩ := List.append_eq_nil_iff.mp hboth.symm
    cases hold
    cases hnew
    rfl
  rw [← hreached]
  exact h.all hrunning hkept

/-! ### A book, read again before its change -/

/-- The destination takes whatever it is sent. -/
def taken : Choice := answering (.response ⟨1, 0, some (.postgreSQL "0/20"), []⟩)

/-- The book is sent; the stream reads it again and goes on to its change. -/
def booksReread : TaskState :=
  (((((TaskState.start freshWorld).receive bookInserted).process booksTask taken).receive
    bookInserted).receive bookChanged).process booksTask taken

theorem reachable_booksReread :
    ((machine booksTask 100 [bookInserted, bookChanged]).restrict
      (WithinWindow 100 [bookInserted, bookChanged])).Reachable ⟨booksReread, 2, 2⟩ := by
  have h₀ : ((machine booksTask 100 [bookInserted, bookChanged]).restrict
      (WithinWindow 100 [bookInserted, bookChanged])).Reachable ⟨.start freshWorld, 0, 0⟩ :=
    .init ⟨freshWorld, rfl, rfl, rfl⟩
  have h₁ := h₀.step (l := Label.read) ⟨trivial, .read rfl (taskMachine_receive rfl bookInserted)⟩
  have h₂ := h₁.step (l := Label.process)
    ⟨fun _ _ hkept => absurd hkept List.not_mem_nil, .process (taskMachine_process rfl taken)⟩
  have h₃ := h₂.step (l := Label.goBack 0)
    ⟨show 1 ≤ 0 + capacity 100 by decide, .goBack (Nat.zero_le _)⟩
  have h₄ := h₃.step (l := Label.read) ⟨trivial, .read rfl (taskMachine_receive rfl bookInserted)⟩
  have h₅ := h₄.step (l := Label.read) ⟨trivial, .read rfl (taskMachine_receive rfl bookChanged)⟩
  exact h₅.step (l := Label.process)
    ⟨fun _ _ hkept => absurd hkept List.not_mem_nil, .process (taskMachine_process rfl taken)⟩

/-! ## What is sent -/

end ReplayedTask

end MeiliBridge
