import MeiliBridge.Lib.Trans
import MeiliBridge.Orchestrator.DestinationCommand

/-!
# The destination processor

All tasks, full syncs and workers send their commands through one channel to one processor, which
serves them one after another and answers each to its sender. `ServesInOrder` is the law of its
runs.

`index_holds_reported` puts the commands together for one index over a whole run: whatever became of
the commands for other indexes, the index holds what the commands that write to it make, in the
order in which they were sent.
-/

set_option autoImplicit false

namespace MeiliBridge

open Interaction Trans

namespace DestinationProcessor

/-! ## The loop -/

inductive Phase where
  | connecting
  | serving
  | stopped
  deriving DecidableEq

/-- A command that was taken out of the channel, its answer, and the documents on both sides. -/
structure Served where
  command : DestinationCommand
  answer : Answer
  before : Documents
  after : Documents

/-- `sent` and `served` record the run. The senders of what is left in the queue of a processor that
has stopped get no response. -/
structure State where
  phase : Phase
  queue : List DestinationCommand
  documents : Documents
  sent : List DestinationCommand
  served : List Served

/-- `mpsc::channel(100)` -/
def capacity : Nat := 100

/-- The command at the head of the channel has been dealt with. -/
def State.serveHead (s : State) (phase : Phase) (rest : List DestinationCommand)
    (command : DestinationCommand) (answer : Answer) (documents : Documents) : State where
  phase
  queue := rest
  documents
  sent := s.sent
  served := s.served ++ [⟨command, answer, s.documents, documents⟩]

def phaseAfter : Except Fault DestinationResponse → Phase
  | .error .panic => .stopped
  | _ => .serving

inductive Label where
  | connect (connected : Bool)
  | send (command : DestinationCommand)
  | serve
  /-- the task is aborted while it serves a command -/
  | abort
  | shutdown

/-- `run_destination_processor`, with the senders -/
inductive Step (srv : SearchServer) (rt : Runtime) (a : MeilisearchAdapter) :
    State → Label → State → Prop
  | connect {s : State} {connected : Bool} (hphase : s.phase = .connecting) :
      Step srv rt a s (.connect connected)
        { s with phase := if connected then .serving else .stopped }
  | send {s : State} {command : DestinationCommand} (hphase : s.phase ≠ .stopped)
      (hroom : s.queue.length < capacity) :
      Step srv rt a s (.send command)
        { s with queue := s.queue ++ [command], sent := s.sent ++ [command] }
  | serve {s : State} {command : DestinationCommand} {rest : List DestinationCommand}
      {batchSize : Nat} {healthy : Bool} {p : Prog MeiliOp (fun _ => Result Unit) Fault
        DestinationResponse} {r : Except Fault DestinationResponse} {w : Documents}
      (hphase : s.phase = .serving) (hqueue : s.queue = command :: rest)
      (hp : DestinationProcessor.serve rt a batchSize healthy command = some p)
      (hruns : Runs srv.handler (fun _ => True) p s.documents r w) :
      Step srv rt a s .serve (s.serveHead (phaseAfter r) rest command (answerOf r) w)
  | shutdownCommand {s : State} {rest : List DestinationCommand} (hphase : s.phase = .serving)
      (hqueue : s.queue = .shutdown :: rest) :
      Step srv rt a s .serve (s.serveHead .stopped rest .shutdown .dropped s.documents)
  | abort {s : State} {command : DestinationCommand} {rest : List DestinationCommand}
      {batchSize : Nat} {healthy : Bool} {p : Prog MeiliOp (fun _ => Result Unit) Fault
        DestinationResponse} {w : Documents}
      (hphase : s.phase = .serving) (hqueue : s.queue = command :: rest)
      (hp : DestinationProcessor.serve rt a batchSize healthy command = some p)
      (hvisits : Visits srv.handler (fun _ => True) p s.documents w) :
      Step srv rt a s .abort (s.serveHead .stopped rest command .dropped w)
  | shutdown {s : State} (hphase : s.phase ≠ .stopped) :
      Step srv rt a s .shutdown { s with phase := .stopped }

def machine (srv : SearchServer) (rt : Runtime) (a : MeilisearchAdapter) (initial : Documents) :
    Machine State Label where
  init s := s = ⟨.connecting, [], initial, [], []⟩
  step := Step srv rt a

variable {srv : SearchServer} {rt : Runtime} {a : MeilisearchAdapter}

/-! ## The law -/

/-- Each command is served on the documents that the one before it has left. -/
def Linked : Documents → List Served → Documents → Prop
  | w, [], w' => w' = w
  | w, e :: rest, w' => e.before = w ∧ Linked e.after rest w'

theorem Linked.snoc {served : List Served} {w : Documents} {e : Served}
    (h : Linked w served e.before) : Linked w (served ++ [e]) e.after := by
  induction served generalizing w with
  | nil => exact ⟨h, rfl⟩
  | cons first rest ih => exact ⟨h.1, ih h.2⟩

theorem Linked.split {xs ys : List Served} {w w' : Documents} (h : Linked w (xs ++ ys) w') :
    ∃ mid, Linked w xs mid ∧ Linked mid ys w' := by
  induction xs generalizing w with
  | nil => exact ⟨w, rfl, h⟩
  | cons e rest ih =>
    obtain ⟨mid, hrest, hys⟩ := ih h.2
    exact ⟨mid, ⟨h.1, hrest⟩, hys⟩

/-- What a served command has done to the documents. -/
structure Faithful (srv : SearchServer) (rt : Runtime) (a : MeilisearchAdapter) (e : Served) :
    Prop where
  made : ∀ indexName,
    KeyedLog.PartlyRun (operations srv rt a indexName e.command) (e.before indexName)
      (e.after indexName)
  reported : ∀ response, e.answer = .response response → response.failedCount = 0 →
    Applies srv rt a e.command e.before e.after

structure ServesInOrder (srv : SearchServer) (rt : Runtime) (a : MeilisearchAdapter)
    (initial : Documents) (s : State) : Prop where
  /-- each command is served once, in the order of sending -/
  order : s.served.map Served.command ++ s.queue = s.sent
  room : s.queue.length ≤ capacity
  linked : Linked initial s.served s.documents
  faithful : ∀ e ∈ s.served, Faithful srv rt a e
  /-- a response is missing only where the processor stops -/
  answered : ∀ e ∈ s.served.dropLast, e.answer ≠ .dropped
  running : s.phase ≠ .stopped → ∀ e ∈ s.served, e.answer ≠ .dropped

theorem faithful_of_runs {batchSize : Nat} {healthy : Bool} {command : DestinationCommand}
    {p : Prog MeiliOp (fun _ => Result Unit) Fault DestinationResponse} {w w' : Documents}
    {r : Except Fault DestinationResponse} (hp : serve rt a batchSize healthy command = some p)
    (hruns : Runs srv.handler (fun _ => True) p w r w') :
    Faithful srv rt a ⟨command, answerOf r, w, w'⟩ where
  made indexName := (wp_iff.mp (wp_serve_partlyRun hp indexName w)).2 r w' hruns
  reported response hanswer hnone := by
    have hr : r = .ok response := by
      cases r with
      | ok response' => exact congrArg Except.ok (Answer.response.inj hanswer)
      | error fault => cases fault <;> cases hanswer
    exact (wp_iff.mp (wp_serve_reported hp w)).2 r w' hruns response hr hnone

theorem faithful_of_visits {batchSize : Nat} {healthy : Bool} {command : DestinationCommand}
    {p : Prog MeiliOp (fun _ => Result Unit) Fault DestinationResponse} {w w' : Documents}
    (hp : serve rt a batchSize healthy command = some p)
    (hvisits : Visits srv.handler (fun _ => True) p w w') :
    Faithful srv rt a ⟨command, .dropped, w, w'⟩ where
  made indexName := (wp_iff.mp (wp_serve_partlyRun hp indexName w)).1 w' hvisits
  reported response hanswer _ := by cases hanswer

variable {initial : Documents} {s s' : State}

/-- A command is dealt with. -/
theorem ServesInOrder.serveHead (hi : ServesInOrder srv rt a initial s) {phase : Phase}
    {rest : List DestinationCommand} {command : DestinationCommand} {answer : Answer}
    {w : Documents} (hphase : s.phase = .serving) (hqueue : s.queue = command :: rest)
    (hfaithful : Faithful srv rt a ⟨command, answer, s.documents, w⟩)
    (hdropped : phase ≠ .stopped → answer ≠ .dropped) :
    ServesInOrder srv rt a initial (s.serveHead phase rest command answer w) := by
  have hrunning := hi.running (by rw [hphase]; decide)
  refine ⟨?_, ?_, hi.linked.snoc, ?_, ?_, ?_⟩
  · show (s.served ++ [_]).map Served.command ++ rest = s.sent
    rw [← hi.order, hqueue, List.map_append, List.append_assoc]
    rfl
  · have hroom := hi.room
    rw [hqueue, List.length_cons] at hroom
    exact Nat.le_of_succ_le hroom
  · intro e he
    rcases List.mem_append.mp he with hold | hnew
    · exact hi.faithful e hold
    · rw [List.mem_singleton.mp hnew]
      exact hfaithful
  · intro e he
    have hmem : e ∈ s.served := by
      rw [State.serveHead, List.dropLast_concat] at he
      exact he
    exact hrunning e hmem
  · intro hgoes e he
    rcases List.mem_append.mp he with hold | hnew
    · exact hrunning e hold
    · rw [List.mem_singleton.mp hnew]
      exact hdropped hgoes

theorem answerOf_ne_dropped {r : Except Fault DestinationResponse}
    (h : phaseAfter r ≠ .stopped) : answerOf r ≠ .dropped := by
  cases r with
  | ok response => nofun
  | error fault =>
    cases fault with
    | err e => nofun
    | panic => exact absurd rfl h

theorem ServesInOrder.step {l : Label} (hi : ServesInOrder srv rt a initial s)
    (hs : Step srv rt a s l s') : ServesInOrder srv rt a initial s' := by
  cases hs with
  | connect hphase =>
    have hrunning := hi.running (by rw [hphase]; decide)
    exact ⟨hi.order, hi.room, hi.linked, hi.faithful, hi.answered, fun _ => hrunning⟩
  | send hphase hroom =>
    refine ⟨?_, ?_, hi.linked, hi.faithful, hi.answered, hi.running⟩
    · show s.served.map Served.command ++ (s.queue ++ [_]) = s.sent ++ [_]
      rw [← List.append_assoc, hi.order]
    · show (s.queue ++ [_]).length ≤ capacity
      rw [List.length_append]
      exact hroom
  | serve hphase hqueue hp hruns =>
    exact hi.serveHead hphase hqueue (faithful_of_runs hp hruns) answerOf_ne_dropped
  | shutdownCommand hphase hqueue =>
    refine hi.serveHead hphase hqueue ⟨?_, ?_⟩ fun h => absurd rfl h
    · exact fun _ => .refl _ _
    · intro response hanswer
      cases hanswer
  | abort hphase hqueue hp hvisits =>
    exact hi.serveHead hphase hqueue (faithful_of_visits hp hvisits) fun h => absurd rfl h
  | shutdown hphase =>
    exact ⟨hi.order, hi.room, hi.linked, hi.faithful, hi.answered, fun h => absurd rfl h⟩

/-- A processor that is serving can always serve the next command. -/
theorem exists_serve (hphase : s.phase = .serving) (hqueue : s.queue ≠ []) :
    ∃ s', Step srv rt a s .serve s' := by
  obtain ⟨command, rest, hqueue⟩ := List.exists_cons_of_ne_nil hqueue
  cases hp : serve rt a 1 true command with
  | some p =>
    obtain ⟨r, w, hruns⟩ :=
      exists_runs (h := srv.handler) (P := fun _ => True) ⟨.succeeds, trivial⟩ p s.documents
    exact ⟨_, .serve hphase hqueue hp hruns⟩
  | none =>
    cases command with
    | shutdown => exact ⟨_, .shutdownCommand hphase hqueue⟩
    | processEvents | importData | ensureIndex | healthCheck => cases hp

theorem reachable_servesInOrder (h : (machine srv rt a initial).Reachable s) :
    ServesInOrder srv rt a initial s := by
  refine h.invariant ?_ fun _ _ _ hi hs => hi.step hs
  rintro s rfl
  refine ⟨rfl, Nat.zero_le _, rfl, ?_, ?_, fun _ => ?_⟩
  · intro e he
    cases he
  · intro e he
    cases he
  · intro e he
    cases he

/-- **Commands are served in the order in which they were sent, each once and each with an answer of
its own**, up to where the processor stops; until then there is always a next one to serve. -/
theorem serves_in_order (srv : SearchServer) (rt : Runtime) (a : MeilisearchAdapter)
    (initial : Documents) (s : State) (h : (machine srv rt a initial).Reachable s) :
    ServesInOrder srv rt a initial s ∧ (s.phase = .serving → s.queue ≠ [] →
      ∃ s', (machine srv rt a initial).step s .serve s') := by
  refine ⟨reachable_servesInOrder h, ?_⟩
  intro hphase hqueue
  exact exists_serve hphase hqueue

/-! ### A book is imported while the index of films waits -/

def importBook : DestinationCommand :=
  .importData "books" [.object [("id", .number (.ofNat 1))]] none

def ensureFilms : DestinationCommand := .ensureIndex "films" none

def noDocuments : Documents := fun _ _ => none

/-- The books after the import. -/
def oneBook : Documents :=
  SearchServer.change noDocuments "books" [.put "1" (.object [("id", .number (.ofNat 1))])]

def bookImported : State where
  phase := .serving
  queue := [ensureFilms]
  documents := oneBook
  sent := [importBook, ensureFilms]
  served := [⟨importBook, .response completed, noDocuments, oneBook⟩]

/-- Any condition that lets these four steps through lets the run through. -/
theorem reachable_bookImported (ok : State → Label → Prop)
    (hok : ∀ s l, l ∈ [.connect true, .send importBook, .send ensureFilms, .serve] → ok s l) :
    ((machine idServer ⟨id, id, ""⟩ idAdapter noDocuments).restrict ok).Reachable
      bookImported := by
  have h₀ : ((machine idServer ⟨id, id, ""⟩ idAdapter noDocuments).restrict ok).Reachable
      ⟨.connecting, [], noDocuments, [], []⟩ := .init rfl
  have h₁ := h₀.step (l := Label.connect true) ⟨hok _ _ (by simp), .connect rfl⟩
  have h₂ := h₁.step (l := Label.send importBook)
    ⟨hok _ _ (by simp), .send (by decide) (by decide)⟩
  have h₃ := h₂.step (l := Label.send ensureFilms)
    ⟨hok _ _ (by simp), .send (by decide) (by decide)⟩
  have hserve : serve ⟨id, id, ""⟩ idAdapter 10 true importBook = some _ := rfl
  exact h₃.step (l := Label.serve) ⟨hok _ _ (by simp), .serve (r := .ok completed) (w := oneBook)
    rfl rfl hserve ⟨.succeeds, trivial, .succeeds, trivial, rfl, rfl⟩⟩

/-- The import is answered, and the command after it can be served. -/
theorem serves_in_order_books :
    ServesInOrder idServer ⟨id, id, ""⟩ idAdapter noDocuments bookImported ∧
      ∃ s', (machine idServer ⟨id, id, ""⟩ idAdapter noDocuments).step bookImported .serve s' := by
  have h := reachable_bookImported (fun _ _ => True) fun _ _ _ => trivial
  obtain ⟨hlaw, hserve⟩ := serves_in_order idServer ⟨id, id, ""⟩ idAdapter noDocuments
    bookImported h.of_restrict
  exact ⟨hlaw, hserve rfl (by decide)⟩

/-! ## What an index holds -/

/-- The command was answered with a response that counts no failure. -/
def Served.Reported (e : Served) : Prop :=
  ∃ response, e.answer = .response response ∧ response.failedCount = 0

theorem Linked.index_eq {served : List Served} {w w' : Documents} {indexName : String}
    (h : Linked w served w') (hfaithful : ∀ e ∈ served, Faithful srv rt a e)
    (hreported : ∀ e ∈ served, Writes rt a indexName e.command → e.Reported) :
    w' indexName = KeyedLog.run ((served.map Served.command).flatMap
      (operations srv rt a indexName)) (w indexName) := by
  induction served generalizing w with
  | nil =>
    obtain rfl := h
    rfl
  | cons e rest ih =>
    obtain ⟨rfl, hrest⟩ := h
    have hone : e.after indexName =
        KeyedLog.run (operations srv rt a indexName e.command) (e.before indexName) := by
      by_cases hwrites : Writes rt a indexName e.command
      · obtain ⟨response, hanswer, hnone⟩ := hreported e List.mem_cons_self hwrites
        exact (hfaithful e List.mem_cons_self).reported response hanswer hnone indexName
      · rw [operations_of_not_writes hwrites]
        have hmade := (hfaithful e List.mem_cons_self).made indexName
        rw [operations_of_not_writes hwrites] at hmade
        exact hmade.eq_of_nil
    rw [List.map_cons, List.flatMap_cons, KeyedLog.run_append, ← hone]
    exact ih hrest (fun e he => hfaithful e (List.mem_cons_of_mem _ he))
      fun e he => hreported e (List.mem_cons_of_mem _ he)

/-- Whatever is answered, an index has some part of the commands that were served. -/
theorem Linked.partlyRun {served : List Served} {w w' : Documents} (h : Linked w served w')
    (hfaithful : ∀ e ∈ served, Faithful srv rt a e) (indexName : String) :
    KeyedLog.PartlyRun ((served.map Served.command).flatMap (operations srv rt a indexName))
      (w indexName) (w' indexName) := by
  induction served generalizing w with
  | nil =>
    obtain rfl := h
    exact .refl _ _
  | cons e rest ih =>
    obtain ⟨rfl, hrest⟩ := h
    rw [List.map_cons, List.flatMap_cons]
    exact ((hfaithful e List.mem_cons_self).made indexName).append
      (ih hrest fun e he => hfaithful e (List.mem_cons_of_mem _ he))

/-- **An index holds what the commands that write to it make, in the order of sending**, if each of
them is reported without failures. What becomes of the other commands is no matter. -/
theorem index_holds_reported (srv : SearchServer) (rt : Runtime) (a : MeilisearchAdapter)
    (initial : Documents) (s : State) (h : (machine srv rt a initial).Reachable s)
    (indexName : String)
    (hreported : ∀ e ∈ s.served, Writes rt a indexName e.command → e.Reported) :
    s.documents indexName = KeyedLog.run ((s.served.map Served.command).flatMap
      (operations srv rt a indexName)) (initial indexName) := by
  have hinv := reachable_servesInOrder h
  exact hinv.linked.index_eq hinv.faithful hreported

/-- The command in the queue does not write to the books. -/
theorem index_holds_reported_books :
    oneBook "books" = KeyedLog.run [.put "1" (.object [("id", .number (.ofNat 1))])]
      (fun _ => none) := by
  have h := reachable_bookImported (fun _ _ => True) fun _ _ _ => trivial
  refine index_holds_reported idServer ⟨id, id, ""⟩ idAdapter noDocuments bookImported
    h.of_restrict "books" ?_
  intro e he _
  obtain rfl := List.mem_singleton.mp he
  exact ⟨completed, rfl, rfl⟩

end DestinationProcessor

end MeiliBridge
