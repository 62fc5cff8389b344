import MeiliBridge.Orchestrator.FullSyncImport

/-!
# When a full sync that succeeds is complete

`performFullSync_eq` turns the loop over the stream into the commands for the batches of its
documents, one after the other until one is not answered with a response. What the server accepts of
a command is a part of its batch, and the whole batch exactly when it accepts every chunk.
-/

set_option autoImplicit false

namespace MeiliBridge

open Interaction

/-! ## One command -/

/-- The documents that are accepted of a command that is answered with a response. -/
def ImportFate.accepts (fate : ImportFate) (documents : List Value) : List Value :=
  acceptedChunks fate.server 1 (documents.chunks fate.batchSize)

theorem ImportFate.answer_cases (fate : ImportFate) (a : MeilisearchAdapter) (index : String)
    (documents : List Value) (primaryKey : Option String) :
    (fate.Responds ∧ ∃ r, fate.answer a index documents primaryKey =
      (.response r, fate.accepts documents)) ∨
    (¬ fate.Responds ∧ ∀ r, (fate.answer a index documents primaryKey).1 ≠ .response r) := by
  by_cases hreceived : fate.received = true
  · simp only [ImportFate.answer, if_pos hreceived]
    rcases @eval_importData fate.server a fate.batchSize index documents primaryKey with
      ⟨r, hrun, hindex, hsize⟩ | ⟨fault, hrun, hfails⟩
    · rw [hrun]
      by_cases hanswered : fate.answered = true
      · exact .inl ⟨⟨hreceived, hanswered, hindex, hsize⟩, r.response, by simp [hanswered, accepts]⟩
      · exact .inr ⟨fun h => hanswered h.2.1, fun r => by simp [hanswered]⟩
    · rw [hrun]
      refine .inr ⟨fun h => hfails h.2.2, fun r => ?_⟩
      cases fault with
      | err e => cases fate.answered <;> simp
      | panic => simp
  · refine .inr ⟨fun h => hreceived h.1, fun r => ?_⟩
    simp only [ImportFate.answer, if_neg hreceived]
    exact fun h => by cases h

theorem ImportFate.accepts_sublist (fate : ImportFate) {documents : List Value}
    (hsize : 0 < fate.batchSize) : (fate.accepts documents).Sublist documents := by
  have hsub := @acceptedChunks_sublist fate.server 1 (documents.chunks fate.batchSize)
  rwa [List.flatten_chunks hsize] at hsub

theorem ImportFate.accepts_eq_iff (fate : ImportFate) {documents : List Value}
    (hsize : 0 < fate.batchSize) :
    fate.accepts documents = documents ↔ fate.AcceptsAll documents := by
  have hiff := @acceptedChunks_eq_iff fate.server (documents.chunks fate.batchSize)
    (fun chunk hchunk => List.ne_nil_of_mem_chunks hchunk) 1
  rwa [List.flatten_chunks hsize] at hiff

namespace FullSync

variable (f : FullSync)

theorem importDocuments_cases (documents : List Value) (p : Progress) :
    (f.destinationStarted = true ∧ (f.fate p.commands).Responds ∧
      f.importDocuments documents p =
        (.ok (), ⟨p.commands + 1, p.accepted ++ (f.fate p.commands).accepts documents⟩)) ∨
    (¬ (f.destinationStarted = true ∧ (f.fate p.commands).Responds) ∧
      ∃ e, (f.importDocuments documents p).1 = .error e) := by
  unfold importDocuments
  split
  · next hstarted =>
    rcases (f.fate p.commands).answer_cases f.adapter f.index documents (some f.primaryKey) with
      ⟨hresponds, r, hanswer⟩ | ⟨hno, hanswer⟩
    · rw [hanswer]
      exact .inl ⟨hstarted, hresponds, rfl⟩
    · refine .inr ⟨fun h => hno h.2, ?_⟩
      generalize (f.fate p.commands).answer f.adapter f.index documents (some f.primaryKey) = run
        at hanswer
      obtain ⟨answer, accepted⟩ := run
      cases answer with
      | response r => exact absurd rfl (hanswer r)
      | sendFailed => exact ⟨_, rfl⟩
      | dropped => exact ⟨_, rfl⟩
      | error e => exact ⟨e, rfl⟩
  · next hstarted => exact .inr ⟨fun h => hstarted h.1, _, rfl⟩

/-! ## The commands of a sync -/

/-- One command for each batch, until one is not answered with a response. -/
def importBatches : List (List Value) → Progress → Result Unit × Progress
  | [], p => (.ok (), p)
  | documents :: rest, p =>
    match f.importDocuments documents p with
    | (.ok (), p) => importBatches rest p
    | (.error e, p) => (.error e, p)

/-- What is accepted of the batches, from the n-th command on. -/
def acceptedFrom : Nat → List (List Value) → List Value
  | _, [] => []
  | n, documents :: rest => (f.fate n).accepts documents ++ acceptedFrom (n + 1) rest

/-- All of the batches are answered with a response. -/
def AllRespond (n : Nat) (batches : List (List Value)) : Prop :=
  (batches ≠ [] → f.destinationStarted = true) ∧
    ∀ k, k < batches.length → (f.fate (n + k)).Responds

theorem allRespond_cons (n : Nat) (documents : List Value) (rest : List (List Value)) :
    f.AllRespond n (documents :: rest) ↔
      (f.destinationStarted = true ∧ (f.fate n).Responds) ∧ f.AllRespond (n + 1) rest := by
  constructor
  · intro h
    have hstarted := h.1 (List.cons_ne_nil _ _)
    refine ⟨⟨hstarted, h.2 0 (Nat.succ_pos _)⟩, fun _ => hstarted, fun k hk => ?_⟩
    rw [show n + 1 + k = n + (k + 1) by omega]
    exact h.2 (k + 1) (Nat.succ_lt_succ hk)
  · rintro ⟨⟨hstarted, hfirst⟩, -, hrest⟩
    refine ⟨fun _ => hstarted, fun k hk => ?_⟩
    cases k with
    | zero => exact hfirst
    | succ k =>
      rw [show n + (k + 1) = n + 1 + k by omega]
      exact hrest k (Nat.lt_of_succ_lt_succ hk)

theorem importBatches_cases (batches : List (List Value)) (p : Progress) :
    (f.AllRespond p.commands batches ∧ f.importBatches batches p =
      (.ok (), ⟨p.commands + batches.length, p.accepted ++ f.acceptedFrom p.commands batches⟩)) ∨
    (¬ f.AllRespond p.commands batches ∧ ∃ e, (f.importBatches batches p).1 = .error e) := by
  induction batches generalizing p with
  | nil =>
    refine .inl ⟨⟨fun h => absurd rfl h, fun k hk => absurd hk (Nat.not_lt_zero k)⟩, ?_⟩
    rw [acceptedFrom, List.append_nil]
    rfl
  | cons documents rest ih =>
    rw [allRespond_cons]
    rcases f.importDocuments_cases documents p with ⟨hstarted, hresponds, himport⟩ | ⟨hno, e, he⟩
    · rw [importBatches, himport]
      rcases ih ⟨p.commands + 1, p.accepted ++ (f.fate p.commands).accepts documents⟩ with
        ⟨hall, hrest⟩ | ⟨hnot, e, he⟩
      · refine .inl ⟨⟨⟨hstarted, hresponds⟩, hall⟩, hrest.trans ?_⟩
        rw [List.length_cons, acceptedFrom, List.append_assoc,
          show p.commands + 1 + rest.length = p.commands + (rest.length + 1) by omega]
      · exact .inr ⟨fun h => hnot h.2, e, he⟩
    · refine .inr ⟨fun h => hno h.1, e, ?_⟩
      rw [importBatches]
      generalize f.importDocuments documents p = run at he
      obtain ⟨r, p'⟩ := run
      cases he
      rfl

/-! ## The loop over the stream -/

/-- Without a panic, a row adds its document, if it has one. -/
theorem syncRows_row {row : Value} (hpanic : f.process row ≠ .panicked)
    (items : List (Result Value)) (documents : List Value) (p : Progress) :
    f.syncRows (.ok row :: items) documents p =
      match f.document row with
      | none => f.syncRows items documents p
      | some data =>
        if (documents ++ [data]).length ≥ f.batchSize then
          match f.importDocuments (documents ++ [data]) p with
          | (.ok (), p) => f.syncRows items [] p
          | (.error e, p) => (.error (.err e), p)
        else f.syncRows items (documents ++ [data]) p := by
  rw [syncRows, document]
  cases hrow : f.process row with
  | panicked => exact absurd hrow hpanic
  | kept e => rfl
  | dropped => rfl
  | failed e => rfl

theorem not_ok_of_panic {items : List (Result Value)} {row : Value} (hrow : .ok row ∈ items)
    (hpanic : f.process row = .panicked) (documents : List Value) (p : Progress) :
    ∃ fault, (f.syncRows items documents p).1 = .error fault := by
  induction items generalizing documents p with
  | nil => cases hrow
  | cons item items ih =>
    cases item with
    | error e =>
      refine ih ?_ documents p
      exact (List.mem_cons.mp hrow).resolve_left (by simp)
    | ok first =>
      by_cases hfirst : f.process first = .panicked
      · refine ⟨.panic, ?_⟩
        rw [syncRows, hfirst]
      · have hrow : .ok row ∈ items := by
          refine (List.mem_cons.mp hrow).resolve_left fun heq => hfirst ?_
          cases heq
          exact hpanic
        rw [f.syncRows_row hfirst]
        cases f.document first with
        | none => exact ih hrow documents p
        | some data =>
          dsimp only
          split
          · rcases f.importDocuments (documents ++ [data]) p with ⟨r, p'⟩
            cases r with
            | ok u => exact ih hrow [] p'
            | error e => exact ⟨.err e, rfl⟩
          · exact ih hrow (documents ++ [data]) p

theorem importBatches_single (documents : List Value) (p : Progress) :
    f.importBatches [documents] p = f.importDocuments documents p := by
  rw [importBatches]
  rcases f.importDocuments documents p with ⟨r, p'⟩
  cases r <;> rfl

/-- The loop, and the import of what remains, are one command for each batch of the documents. -/
theorem importRemaining_syncRows {items : List (Result Value)}
    (hpanic : ∀ row, .ok row ∈ items → f.process row ≠ .panicked) {documents : List Value}
    (hlen : documents.length < max 1 f.batchSize) (p : Progress) :
    f.importRemaining (f.syncRows items documents p) =
      asFault (f.importBatches ((documents ++
        (items.filterMap Except.toOption).filterMap f.document).chunks (max 1 f.batchSize)) p) := by
  have hpos : 0 < max 1 f.batchSize := lt_of_lt_of_le Nat.one_pos (le_max_left _ _)
  induction items generalizing documents p with
  | nil =>
    rw [List.filterMap_nil, List.filterMap_nil, List.append_nil, syncRows, importRemaining]
    by_cases hnone : documents = []
    · rw [if_pos hnone, hnone, List.chunks_nil]
      rfl
    · rw [if_neg hnone, List.chunks_short hnone (le_of_lt hlen), importBatches_single]
  | cons item items ih =>
    have ih := fun {documents} => @ih (fun row hrow => hpanic row (List.mem_cons_of_mem _ hrow))
      documents
    cases item with
    | error e => exact ih hlen p
    | ok row =>
      rw [f.syncRows_row (hpanic row List.mem_cons_self),
        List.filterMap_cons_some (show Except.toOption (.ok row : Result Value) =
          some row from rfl)]
      cases hdocument : f.document row with
      | none =>
        rw [List.filterMap_cons_none hdocument]
        exact ih hlen p
      | some data =>
        rw [List.filterMap_cons_some hdocument, ← List.singleton_append, ← List.append_assoc]
        dsimp only
        have hsucc : (documents ++ [data]).length = documents.length + 1 := by simp
        split
        · next hfull =>
          -- the batch is full, and is imported before the loop goes on
          have hbatch : (documents ++ [data]).length = max 1 f.batchSize := by omega
          rw [List.chunks_append hpos hbatch, importBatches]
          rcases f.importDocuments (documents ++ [data]) p with ⟨r, p'⟩
          cases r with
          | ok u => exact @ih [] hpos p'
          | error e => rfl
        · next hroom => exact ih (by omega) p

/-! ## When a sync succeeds, and what it has imported then -/

variable (src : SourceRun)

theorem ok_mem_iff (row : Value) : .ok row ∈ src.sent ↔ row ∈ src.delivered := by
  rw [SourceRun.delivered, List.mem_filterMap]
  constructor
  · exact fun h => ⟨_, h, rfl⟩
  · rintro ⟨item, hitem, hrow⟩
    cases item with
    | ok v =>
      cases hrow
      exact hitem
    | error e => cases hrow

theorem performFullSync_eq (hsource : f.sourceFound = true)
    (hpanic : ∀ row ∈ src.delivered, f.process row ≠ .panicked) :
    f.performFullSync src = asFault (f.importBatches (f.batches src) ⟨0, []⟩) := by
  rw [performFullSync, if_pos hsource]
  exact @importRemaining_syncRows f src.sent (fun row hrow =>
    hpanic row ((ok_mem_iff src row).mp hrow))
    [] (lt_of_lt_of_le Nat.one_pos (le_max_left _ _)) ⟨0, []⟩

/-- A sync succeeds exactly when nothing makes it fail. -/
theorem performFullSync_cases :
    (f.Finishes src ∧ f.performFullSync src =
      (.ok (), ⟨(f.batches src).length, f.acceptedFrom 0 (f.batches src)⟩)) ∨
    (¬ f.Finishes src ∧ ∃ fault, (f.performFullSync src).1 = .error fault) := by
  by_cases hsource : f.sourceFound = true
  · by_cases hpanic : ∀ row ∈ src.delivered, f.process row ≠ .panicked
    · rw [f.performFullSync_eq src hsource hpanic]
      have hiff : f.Finishes src ↔ f.AllRespond 0 (f.batches src) := by
        simp only [AllRespond, Nat.zero_add]
        exact ⟨fun h => ⟨h.started, h.responds⟩, fun h => ⟨hsource, hpanic, h.1, h.2⟩⟩
      rw [hiff]
      rcases f.importBatches_cases (f.batches src) ⟨0, []⟩ with ⟨hall, hok⟩ | ⟨hnot, e, he⟩
      · refine .inl ⟨hall, ?_⟩
        rw [hok, List.nil_append, Nat.zero_add]
        rfl
      · refine .inr ⟨hnot, .err e, ?_⟩
        rw [asFault, he]
        rfl
    · refine .inr ⟨fun h => hpanic h.stages, ?_⟩
      simp only [not_forall, not_not] at hpanic
      obtain ⟨row, hrow, hpanic⟩ := hpanic
      obtain ⟨fault, hfault⟩ := f.not_ok_of_panic ((ok_mem_iff src row).mpr hrow) hpanic [] ⟨0, []⟩
      refine ⟨fault, ?_⟩
      rw [performFullSync, if_pos hsource, SourceRun.getFullData]
      generalize f.syncRows src.sent [] ⟨0, []⟩ = run at hfault
      obtain ⟨r, p⟩ := run
      cases hfault
      rfl
  · refine .inr ⟨fun h => hsource h.source, ?_⟩
    rw [performFullSync, if_neg hsource]
    exact ⟨_, rfl⟩

theorem acceptedFrom_sublist {n : Nat} {batches : List (List Value)}
    (hsizes : ∀ k, k < batches.length → 0 < (f.fate (n + k)).batchSize) :
    (f.acceptedFrom n batches).Sublist batches.flatten := by
  induction batches generalizing n with
  | nil => exact List.Sublist.refl _
  | cons documents rest ih =>
    rw [acceptedFrom, List.flatten_cons]
    refine ((f.fate n).accepts_sublist (hsizes 0 (Nat.succ_pos _))).append (ih fun k hk => ?_)
    rw [show n + 1 + k = n + (k + 1) by omega]
    exact hsizes (k + 1) (Nat.succ_lt_succ hk)

theorem acceptedFrom_eq_iff {n : Nat} {batches : List (List Value)}
    (hsizes : ∀ k, k < batches.length → 0 < (f.fate (n + k)).batchSize) :
    f.acceptedFrom n batches = batches.flatten ↔
      ∀ k (h : k < batches.length), (f.fate (n + k)).AcceptsAll batches[k] := by
  induction batches generalizing n with
  | nil => simp [acceptedFrom]
  | cons documents rest ih =>
    have hsizes' : ∀ k, k < rest.length → 0 < (f.fate (n + 1 + k)).batchSize := by
      intro k hk
      rw [show n + 1 + k = n + (k + 1) by omega]
      exact hsizes (k + 1) (Nat.succ_lt_succ hk)
    have hsize : 0 < (f.fate n).batchSize := hsizes 0 (Nat.succ_pos _)
    have hfirst := @ImportFate.accepts_eq_iff (f.fate n) documents hsize
    have hsub := @ImportFate.accepts_sublist (f.fate n) documents hsize
    have hsub' := f.acceptedFrom_sublist hsizes'
    -- both parts are whole when the lengths add up
    have hsplit : f.acceptedFrom n (documents :: rest) = (documents :: rest).flatten ↔
        (f.fate n).accepts documents = documents ∧
          f.acceptedFrom (n + 1) rest = rest.flatten := by
      rw [acceptedFrom, List.flatten_cons]
      constructor
      · intro heq
        have hlen := congrArg List.length heq
        rw [List.length_append, List.length_append] at hlen
        have hle := hsub.length_le
        have hle' := hsub'.length_le
        exact ⟨hsub.eq_of_length (by omega), hsub'.eq_of_length (by omega)⟩
      · rintro ⟨hdocuments, hrest⟩
        rw [hdocuments, hrest]
    rw [hsplit, hfirst, ih hsizes']
    constructor
    · rintro ⟨hzero, hrest⟩ k hk
      cases k with
      | zero => exact hzero
      | succ k =>
        rw [show n + (k + 1) = n + 1 + k by omega]
        exact hrest k (Nat.lt_of_succ_lt_succ hk)
    · intro h
      refine ⟨h 0 (Nat.succ_pos _), fun k hk => ?_⟩
      rw [show n + 1 + k = n + (k + 1) by omega]
      exact h (k + 1) (Nat.succ_lt_succ hk)

/-- **A full sync that succeeds is complete** exactly when the source has sent every row that the
pipeline keeps and the server has accepted every chunk; a sync in which something else fails does
not succeed. -/
theorem full_sync_complete_iff :
    f.Complete src ↔ ¬ f.Finishes src ∨ f.LosesNothing src := by
  rcases f.performFullSync_cases src with ⟨hfinishes, hrun⟩ | ⟨hnot, fault, hfault⟩
  · have hpos : 0 < max 1 f.batchSize := lt_of_lt_of_le Nat.one_pos (le_max_left _ _)
    have hsizes : ∀ k, k < (f.batches src).length → 0 < (f.fate (0 + k)).batchSize := by
      intro k hk
      rw [Nat.zero_add]
      exact (hfinishes.responds k hk).2.2.2
    have hflatten : (f.batches src).flatten = src.delivered.filterMap f.document :=
      List.flatten_chunks hpos _
    have hsub := f.acceptedFrom_sublist hsizes
    have heq := f.acceptedFrom_eq_iff hsizes
    simp only [Nat.zero_add] at heq
    rw [hflatten] at hsub heq
    rw [Complete, hrun, SourceRun.rows, List.filterMap_append]
    dsimp only
    constructor
    · intro h
      have hle := (h rfl).length_le
      have hle' := hsub.length_le
      rw [List.length_append] at hle
      refine .inr ⟨List.length_eq_zero_iff.mp (by omega), heq.mp ?_⟩
      exact hsub.eq_of_length (by omega)
    · intro h _
      have hloses := h.resolve_left fun hno => hno hfinishes
      rw [hloses.sent, List.append_nil, heq.mpr hloses.accepted]
  · refine iff_of_true (fun hok => ?_) (.inl hnot)
    rw [hfault] at hok
    cases hok

/-! ## A chunk that is refused -/

/-- Rows go to the index as they are, and the server refuses them. -/
def refusedBooks : FullSync where
  sourceName := "primary"
  sourceFound := true
  table := "books"
  index := "books"
  primaryKey := "id"
  batchSize := 100
  runtime := ⟨id, id, "2024-01-01T00:00:00+00:00"⟩
  stages := ⟨none, none, none, none⟩
  destinationStarted := true
  adapter := ⟨none, true, ∅, id, fun _ => List.Perm.refl _⟩
  fate _ := ⟨true, true, 1000, fun call =>
    if call = 0 then .ok () else .error (.meilisearch "Add documents failed")⟩

def oneBook : SourceRun := ⟨[.ok (.object [("id", .string "b1")])], .ok (), []⟩

/-- The sync of a book that the server refuses succeeds. -/
theorem refused_not_complete : ¬ ∀ (f : FullSync) (src : SourceRun), f.Complete src := by
  intro hall
  have hcomplete := hall refusedBooks oneBook rfl
  have haccepted : (refusedBooks.performFullSync oneBook).2.accepted = [] := rfl
  rw [haccepted] at hcomplete
  have hlen := hcomplete.length_le
  exact absurd hlen (by decide)

end FullSync

end MeiliBridge
