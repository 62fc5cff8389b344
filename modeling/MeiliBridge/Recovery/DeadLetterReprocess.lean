import MeiliBridge.Recovery.DeadLetterStorage

/-!
# Which dead letters a failed call loses

The entries that `reprocess_task` has deleted before a delete that fails are returned to no one.
For both storages the condition is on the storage as it was before the call: in memory, whether an
id is one entry's alone (`safe_memory_iff`); in files, which file each `delete` comes upon
(`safe_files_iff`).
-/

set_option autoImplicit false

namespace MeiliBridge

namespace Recovery

section

open DeadLetterStorage

variable {S : Type} [DeadLetterStorage S] {s : S} {io : Io} {ios : Nat → Io} {taskId : String}
  {limit : Nat}

/-- A call that fetches nothing deletes nothing. -/
theorem safe_of_fetch_error {e : MeiliBridgeError} (h : getByTask s io taskId limit = .error e) :
    Safe s io ios taskId limit := by
  have hrun : reprocessTask s io ios taskId limit = (.error e, s) := by rw [reprocessTask, h]
  refine ⟨fun e' s' hs' => ?_, fun entries s' hs' => ?_⟩
  · rw [hrun] at hs'
    cases hs'
    exact fun entry hentry => hentry
  · rw [hrun] at hs'
    cases hs'

/-- After the fetch it is the loop that decides. -/
theorem safe_iff_of_fetched {entries : List DeadLetterEntry}
    (h : getByTask s io taskId limit = .ok entries) : Safe s io ios taskId limit ↔
      ((deleteAll s ios entries).1.isOk = true →
        (stored s).Perm (entries ++ stored (deleteAll s ios entries).2)) ∧
      ((deleteAll s ios entries).1.isOk = false →
        ∀ entry ∈ stored s, entry ∈ stored (deleteAll s ios entries).2) := by
  obtain ⟨r, s', hloop⟩ : ∃ r s', deleteAll s ios entries = (r, s') := ⟨_, _, rfl⟩
  rw [hloop]
  cases r with
  | ok =>
    have hrun : reprocessTask s io ios taskId limit = (.ok entries, s') := by
      simp only [reprocessTask, h, hloop]
    constructor
    · exact fun hsafe => ⟨fun _ => hsafe.returned _ _ hrun, fun hfail => by cases hfail⟩
    · intro hloop'
      refine ⟨fun e s'' hs'' => ?_, fun entries' s'' hs'' => ?_⟩
      · rw [hrun] at hs''
        cases hs''
      · rw [hrun] at hs''
        cases hs''
        exact hloop'.1 rfl
  | error e =>
    have hrun : reprocessTask s io ios taskId limit = (.error e, s') := by
      simp only [reprocessTask, h, hloop]
    constructor
    · exact fun hsafe => ⟨fun hok => (by cases hok), fun _ => hsafe.failed _ _ hrun⟩
    · intro hloop'
      refine ⟨fun e' s'' hs'' => ?_, fun entries' s'' hs'' => ?_⟩
      · rw [hrun] at hs''
        cases hs''
        exact hloop'.2 rfl
      · rw [hrun] at hs''
        cases hs''

end

/-- One of the first `n` operations fails. -/
def Io.failsWithin : Io → Nat → Bool
  | none, _ => false
  | some (count, _), n => count < n

/-- An operation fails, or the next ones are those of the call that are left. -/
theorem Io.next_cases (io : Io) :
    (∃ e, io.next = .error e ∧ ∀ n, io.failsWithin (n + 1) = true) ∨
      ∃ io', io.next = .ok io' ∧ ∀ n, io.failsWithin (n + 1) = io'.failsWithin n := by
  cases io with
  | none => exact Or.inr ⟨none, rfl, fun _ => rfl⟩
  | some failure =>
    obtain ⟨count, msg⟩ := failure
    cases count with
    | zero => exact Or.inl ⟨.io msg, rfl, fun n => by simp [failsWithin]⟩
    | succ count => exact Or.inr ⟨some (count, msg), rfl, fun n => by simp [failsWithin]⟩

theorem Io.failsWithin_mono {io : Io} {n : Nat} (h : io.failsWithin n = true) (m : Nat) :
    io.failsWithin (n + m) = true := by
  cases io with
  | none => cases h
  | some failure =>
    simp only [failsWithin, decide_eq_true_eq] at h ⊢
    omega

@[simp] theorem Io.failsWithin_zero (io : Io) : io.failsWithin 0 = false := by
  cases io with
  | none => rfl
  | some failure => simp [failsWithin]

/-! ## In memory -/

namespace MemoryDeadLetterStorage

/-- Everything with the id of one of these entries -/
def withIdsOf (s : MemoryDeadLetterStorage) (entries : List DeadLetterEntry) :
    List DeadLetterEntry :=
  s.entries.filter fun e => e.id ∈ entries.map DeadLetterEntry.id

theorem deleteAll_memory (s : MemoryDeadLetterStorage) (ios : Nat → Io)
    (entries : List DeadLetterEntry) : deleteAll s ios entries = (.ok (), { s with
      entries := s.entries.filter fun e => e.id ∉ entries.map DeadLetterEntry.id }) := by
  induction entries generalizing s ios with
  | nil => simp [deleteAll]
  | cons entry entries ih =>
    have hdelete : DeadLetterStorage.delete s (ios 0) entry.id = (.ok (), s.delete entry.id) := rfl
    rw [deleteAll, hdelete]
    simp only [ih, MemoryDeadLetterStorage.delete, List.filter_filter, List.map_cons,
      List.mem_cons, not_or, Bool.decide_and, Bool.and_comm]
    congr 3
    funext e
    by_cases h : e.id = entry.id <;> simp [h]

theorem getByTask_sublist (s : MemoryDeadLetterStorage) (taskId : String) (limit : Nat) :
    (s.getByTask taskId limit).Sublist s.entries :=
  (List.take_sublist _ _).trans List.filter_sublist

/-- The fetched entries are among those with their ids. -/
theorem sublist_withIdsOf {s : MemoryDeadLetterStorage} {entries : List DeadLetterEntry}
    (h : entries.Sublist s.entries) : entries.Sublist (s.withIdsOf entries) := by
  have hall : entries.filter (fun e => e.id ∈ entries.map DeadLetterEntry.id) = entries := by
    rw [List.filter_eq_self]
    intro e he
    exact decide_eq_true (List.mem_map_of_mem he)
  rw [← hall]
  conv_rhs => rw [hall]
  exact h.filter _

/-- **In memory a call is safe if and only if no entry but the fetched ones has the id of one.** -/
theorem safe_memory_iff (s : MemoryDeadLetterStorage) (io : Io) (ios : Nat → Io)
    (taskId : String) (limit : Nat) : Safe s io ios taskId limit ↔
      s.withIdsOf (s.getByTask taskId limit) = s.getByTask taskId limit := by
  -- what has a fetched id is taken, whatever task it is of
  have hperm := (List.filter_append_perm
    (fun e => decide (e.id ∈ (s.getByTask taskId limit).map DeadLetterEntry.id)) s.entries).symm
  simp only [← decide_not] at hperm
  have hfetch : DeadLetterStorage.getByTask s io taskId limit =
      .ok (s.getByTask taskId limit) := rfl
  rw [safe_iff_of_fetched hfetch, deleteAll_memory]
  constructor
  · intro h
    have htaken := (List.perm_append_right_iff _).mp (hperm.symm.trans (h.1 rfl))
    exact ((sublist_withIdsOf (getByTask_sublist s taskId limit)).eq_of_length
      htaken.length_eq.symm).symm
  · intro h
    refine ⟨fun _ => hperm.trans ?_, fun hfail => by cases hfail⟩
    exact (List.perm_append_right_iff _).mpr (List.Perm.of_eq h)

end MemoryDeadLetterStorage

/-! ## In files -/

namespace FileDeadLetterStorage

variable {Dir : Type} {getTaskDir : String → Dir} {s s' : FileDeadLetterStorage getTaskDir}
  {io : Io} {ios : Nat → Io} {id id' : String} {f : EntryFile Dir} {entry : DeadLetterEntry}

/-! ### The entries of the files -/

theorem content_of_toOption (h : f.content.toOption = some entry) : f.content = .ok entry := by
  cases hcontent : f.content with
  | error msg =>
    rw [hcontent] at h
    cases h
  | ok e =>
    rw [hcontent] at h
    cases h
    rfl

/-- No two entries have their files at one path. -/
theorem stored_pairwise (s : FileDeadLetterStorage getTaskDir) : s.stored.Pairwise fun e e' =>
    ¬ (getTaskDir e.taskId = getTaskDir e'.taskId ∧ e.id = e'.id) := by
  rw [stored, List.pairwise_filterMap]
  refine s.distinct.imp_of_mem fun {f g} hf hg hne => ?_
  intro e he e' he' hsame
  obtain ⟨hdir, hname⟩ := s.own f hf e (content_of_toOption he)
  obtain ⟨hdir', hname'⟩ := s.own g hg e' (content_of_toOption he')
  exact hne ⟨hdir.trans (hsame.1.trans hdir'.symm), hname.trans (hsame.2.trans hname'.symm)⟩

theorem stored_nodup (s : FileDeadLetterStorage getTaskDir) : s.stored.Nodup :=
  s.stored_pairwise.imp fun hne heq => hne ⟨congrArg _ (congrArg _ heq), congrArg _ heq⟩

/-- The loop of `get_by_task` adds entries of the files. -/
theorem readFiles_sublist {limit : Nat} {files : List (EntryFile Dir)}
    {entries fetched : List DeadLetterEntry} {io : Io}
    (h : readFiles limit io entries files = .ok fetched) :
    ∃ more, fetched = entries ++ more ∧
      more.Sublist (files.filterMap fun f => f.content.toOption) := by
  induction files generalizing io entries with
  | nil =>
    rw [readFiles, bind_eq_ok] at h
    obtain ⟨io', -, h⟩ := h
    cases h
    exact ⟨[], by simp, List.Sublist.refl _⟩
  | cons f files ih =>
    rw [readFiles, bind_eq_ok] at h
    obtain ⟨io₁, -, h⟩ := h
    split at h
    · cases h
      exact ⟨[], by simp, List.nil_sublist _⟩
    · split at h
      · obtain ⟨more, hmore, hsub⟩ := ih h
        exact ⟨more, hmore, hsub.trans ((List.sublist_cons_self f files).filterMap _)⟩
      · rw [bind_eq_ok] at h
        obtain ⟨io₂, -, h⟩ := h
        cases hcontent : f.content with
        | error msg =>
          rw [hcontent] at h
          obtain ⟨more, hmore, hsub⟩ := ih h
          exact ⟨more, hmore, hsub.trans ((List.sublist_cons_self f files).filterMap _)⟩
        | ok entry =>
          rw [hcontent] at h
          obtain ⟨more, hmore, hsub⟩ := ih h
          refine ⟨entry :: more, by simp [hmore], ?_⟩
          simpa [List.filterMap_cons, hcontent, Except.toOption] using hsub

variable [DecidableEq Dir]

/-- The file that a `delete` comes upon: in the first listed directory that has one -/
def firstFile (s : FileDeadLetterStorage getTaskDir) (id : String) : Option (EntryFile Dir) :=
  s.taskNames.findSome? fun taskName => s.file? (getTaskDir taskName) id

/-- What a `delete` takes from the storage -/
def taken (s : FileDeadLetterStorage getTaskDir) (id : String) : List DeadLetterEntry :=
  ((s.firstFile id).bind fun f => f.content.toOption).toList

/-- How many operations a search for the id makes -/
def searchOperations (s : FileDeadLetterStorage getTaskDir) (id : String) : List String → Nat
  | [] => 1
  | taskName :: taskNames =>
    (if (s.file? (getTaskDir taskName) id).isSome then 1 else searchOperations s id taskNames) + 2

/-- How many operations a `delete` makes -/
def operations (s : FileDeadLetterStorage getTaskDir) (id : String) : Nat :=
  s.searchOperations id s.taskNames + (if (s.firstFile id).isSome then 1 else 0) + 1

/-- An operation of the `delete` fails, or the file that it comes upon holds no entry. -/
def deleteFails (s : FileDeadLetterStorage getTaskDir) (io : Io) (id : String) : Bool :=
  io.failsWithin (s.operations id) || (s.firstFile id).any fun f => !f.content.isOk

/-- The entries before the first whose `delete` fails on the storage as it is -/
def beforeFailure (s : FileDeadLetterStorage getTaskDir) :
    (Nat → Io) → List DeadLetterEntry → List DeadLetterEntry
  | _, [] => []
  | ios, entry :: entries =>
    if s.deleteFails (ios 0) entry.id then []
    else entry :: beforeFailure s (fun n => ios (n + 1)) entries

/-- Where no `delete` fails each comes upon the entry's own file, and where one fails those before
it come upon none. -/
structure Harmless (s : FileDeadLetterStorage getTaskDir) (ios : Nat → Io)
    (entries : List DeadLetterEntry) : Prop where
  succeeding : s.beforeFailure ios entries = entries →
    ∀ entry ∈ entries, ∃ f, s.firstFile entry.id = some f ∧ f.content = .ok entry
  failing : s.beforeFailure ios entries ≠ entries →
    ∀ entry ∈ s.beforeFailure ios entries, s.firstFile entry.id = none

/-! ### One `delete` -/

theorem file?_eq_some {dir : Dir} (h : s.file? dir id = some f) :
    f ∈ s.files ∧ f.dir = dir ∧ f.name = id := by
  refine ⟨List.mem_of_find?_eq_some h, ?_⟩
  simpa using List.find?_some h

theorem file?_isSome (h : f ∈ s.files) : (s.file? f.dir f.name).isSome := by
  rw [file?, List.find?_isSome]
  exact ⟨f, h, by simp⟩

theorem firstFile_eq_some (h : s.firstFile id = some f) : f ∈ s.files ∧ f.name = id := by
  obtain ⟨taskName, -, hfile⟩ := List.exists_of_findSome?_eq_some h
  obtain ⟨hmem, -, hname⟩ := file?_eq_some hfile
  exact ⟨hmem, hname⟩

/-- The three ways a search can go -/
theorem search_cases (id : String) (io : Io) (taskNames : List String) :
    (∃ e, s.search id io taskNames = .error e ∧
      (io.failsWithin (s.searchOperations id taskNames) = true ∨
        ∃ f msg, taskNames.findSome? (fun taskName => s.file? (getTaskDir taskName) id) = some f ∧
          f.content = .error msg)) ∨
    (s.search id io taskNames = .ok none ∧
      io.failsWithin (s.searchOperations id taskNames) = false ∧
      taskNames.findSome? (fun taskName => s.file? (getTaskDir taskName) id) = none) ∨
    ∃ f entry io', s.search id io taskNames = .ok (some (entry, io')) ∧
      (∀ n, io.failsWithin (s.searchOperations id taskNames + n) = io'.failsWithin n) ∧
      taskNames.findSome? (fun taskName => s.file? (getTaskDir taskName) id) = some f ∧
      f.content = .ok entry := by
  induction taskNames generalizing io with
  | nil =>
    rcases io.next_cases with ⟨e, hnext, hfails⟩ | ⟨io', hnext, hleft⟩
    · exact Or.inl ⟨e, by simp [search, hnext, bind, Except.bind], Or.inl (hfails 0)⟩
    · refine Or.inr (Or.inl ⟨?_, ?_, rfl⟩)
      · simp [search, hnext, bind, Except.bind, pure, Except.pure]
      · exact (hleft 0).trans io'.failsWithin_zero
  | cons taskName taskNames ih =>
    rcases io.next_cases with ⟨e, hentry, hfails⟩ | ⟨io₁, hentry, hleft₁⟩
    · exact Or.inl ⟨e, by simp [search, hentry, bind, Except.bind], Or.inl (hfails _)⟩
    rcases io₁.next_cases with ⟨e, htype, hfails⟩ | ⟨io₂, htype, hleft₂⟩
    · refine Or.inl ⟨e, by simp [search, hentry, htype, bind, Except.bind], Or.inl ?_⟩
      exact (hleft₁ _).trans (hfails _)
    -- the entry of the listing and its type: two operations for each directory
    have hleft (n : Nat) : io.failsWithin (n + 2) = io₂.failsWithin n :=
      (hleft₁ (n + 1)).trans (hleft₂ n)
    cases hfile : s.file? (getTaskDir taskName) id with
    | none =>
      have hoperations : s.searchOperations id (taskName :: taskNames) =
          s.searchOperations id taskNames + 2 := by simp [searchOperations, hfile]
      simp only [search, hentry, htype, hfile, bind, Except.bind, List.findSome?_cons, hoperations,
        Nat.add_right_comm _ 2, hleft]
      exact ih io₂
    | some f =>
      have hoperations : s.searchOperations id (taskName :: taskNames) = 1 + 2 := by
        simp [searchOperations, hfile]
      simp only [search, hentry, htype, hfile, bind, Except.bind, List.findSome?_cons, hoperations,
        Nat.add_right_comm _ 2, hleft]
      rcases io₂.next_cases with ⟨e, hread, hfails⟩ | ⟨io₃, hread, hleft₃⟩
      · exact Or.inl ⟨e, by simp [hread], Or.inl (hfails 0)⟩
      cases hcontent : f.content with
      | error msg =>
        exact Or.inl ⟨.serialization msg, by simp [hread]; rfl, Or.inr ⟨f, msg, rfl, hcontent⟩⟩
      | ok entry =>
        refine Or.inr (Or.inr ⟨f, entry, io₃, by simp [hread]; rfl, fun n => ?_, rfl, hcontent⟩)
        rw [Nat.add_comm]
        exact hleft₃ n

/-- The three ways a `delete` can go: only one of them changes the storage. -/
theorem delete_cases (s : FileDeadLetterStorage getTaskDir) (io : Io) (id : String) :
    (s.deleteFails io id = true ∧ ∃ e, s.delete io id = (.error e, s)) ∨
      (s.deleteFails io id = false ∧ s.firstFile id = none ∧ s.delete io id = (.ok (), s)) ∨
      (s.deleteFails io id = false ∧ ∃ f entry, s.firstFile id = some f ∧
        f.content = .ok entry ∧ s.delete io id = (.ok (), s.without f.dir f.name)) := by
  rcases io.next_cases with ⟨e, hnext, hfails⟩ | ⟨io₁, hnext, hleft⟩
  · refine Or.inl ⟨?_, e, by simp [delete, get, hnext, bind, Except.bind]⟩
    rw [deleteFails, operations, hfails, Bool.true_or]
  have hget : s.get io id = s.search id io₁ s.taskNames := by
    simp [get, hnext, bind, Except.bind]
  rcases search_cases (s := s) id io₁ s.taskNames with
    ⟨e, hsearch, hcause⟩ | ⟨hsearch, hfails, hfirst⟩ |
    ⟨f, entry, io₂, hsearch, hleft₂, hfirst, hcontent⟩
  · refine Or.inl ⟨?_, e, by simp [delete, hget, hsearch]⟩
    rcases hcause with hfails | ⟨f, msg, hfirst, hcontent⟩
    · rw [deleteFails, operations, hleft, Io.failsWithin_mono hfails, Bool.true_or]
    · have hfile : s.firstFile id = some f := hfirst
      simp [deleteFails, hfile, hcontent, Except.isOk, Except.toBool]
  · have hfile : s.firstFile id = none := hfirst
    refine Or.inr (Or.inl ⟨?_, hfile, by simp [delete, hget, hsearch]⟩)
    simp [deleteFails, operations, hleft, hfile, hfails]
  · have hfile : s.firstFile id = some f := hfirst
    obtain ⟨hmem, hname⟩ := firstFile_eq_some hfile
    -- the path that is removed is made of the entry, which is in its own place
    obtain ⟨hdir, -⟩ := s.own f hmem entry hcontent
    have hexists : (s.file? (getTaskDir entry.taskId) id).isSome = true := by
      rw [← hdir, ← hname]
      exact file?_isSome hmem
    have hoperations : io.failsWithin (s.operations id) = io₂.failsWithin 1 := by
      rw [operations, hleft, hfile, Option.isSome_some, if_pos rfl, hleft₂]
    rcases io₂.next_cases with ⟨e, hremove, hfails⟩ | ⟨io₃, hremove, hleft₃⟩
    · refine Or.inl ⟨?_, e, by simp [delete, hget, hsearch, hremove]⟩
      rw [deleteFails, hoperations, hfails 0, Bool.true_or]
    · refine Or.inr (Or.inr ⟨?_, f, entry, hfile, hcontent, ?_⟩)
      · rw [deleteFails, hoperations, hleft₃ 0, hfile]
        simp [hcontent, Except.isOk, Except.toBool]
      · simp [delete, hget, hsearch, hremove, hexists, hdir, hname]

/-- A file of its own path is the only one there. -/
theorem files_split (h : f ∈ s.files) : ∃ before after, s.files = before ++ f :: after ∧
    (s.without f.dir f.name).files = before ++ after := by
  obtain ⟨before, after, hsplit⟩ := List.append_of_mem h
  have hdistinct := s.distinct
  rw [hsplit, List.pairwise_append, List.pairwise_cons] at hdistinct
  obtain ⟨-, ⟨hafter, -⟩, hbefore⟩ := hdistinct
  refine ⟨before, after, hsplit, ?_⟩
  have hkeepBefore : before.filter (fun g => ¬ (g.dir = f.dir ∧ g.name = f.name)) = before := by
    rw [List.filter_eq_self]
    intro g hg
    exact decide_eq_true (hbefore g hg f List.mem_cons_self)
  have hkeepAfter : after.filter (fun g => ¬ (g.dir = f.dir ∧ g.name = f.name)) = after := by
    rw [List.filter_eq_self]
    intro g hg
    refine decide_eq_true fun hsame => hafter g hg ⟨hsame.1.symm, hsame.2.symm⟩
  show s.files.filter _ = _
  rw [hsplit, List.filter_append, List.filter_cons_of_neg (by simp), hkeepBefore, hkeepAfter]

theorem delete_failed (h : s.deleteFails io id = true) :
    ∃ e, s.delete io id = (.error e, s) := by
  rcases s.delete_cases io id with ⟨-, hdelete⟩ | ⟨hok, -⟩ | ⟨hok, -⟩
  · exact hdelete
  · rw [h] at hok
    cases hok
  · rw [h] at hok
    cases hok

theorem delete_ok (h : s.deleteFails io id = false) :
    (s.firstFile id = none ∧ s.delete io id = (.ok (), s)) ∨
      ∃ f entry, s.firstFile id = some f ∧ f.content = .ok entry ∧
        s.delete io id = (.ok (), s.without f.dir f.name) := by
  rcases s.delete_cases io id with ⟨hfails, -⟩ | ⟨-, hnone⟩ | ⟨-, hfile⟩
  · rw [h] at hfails
    cases hfails
  · exact Or.inl hnone
  · exact Or.inr hfile

theorem delete_of_ok (h : s.deleteFails io id = false) :
    s.delete io id = (.ok (), (s.delete io id).2) := by
  rcases delete_ok h with ⟨-, hdelete⟩ | ⟨f, entry, -, -, hdelete⟩
  · rw [hdelete]
  · rw [hdelete]

/-- A `delete` that does not fail takes the entry of the file that it comes upon. -/
theorem delete_takes (h : s.deleteFails io id = false) :
    s.stored.Perm (s.taken id ++ (s.delete io id).2.stored) := by
  rcases delete_ok h with ⟨hfirst, hdelete⟩ | ⟨f, entry, hfirst, hcontent, hdelete⟩
  · rw [hdelete, taken, hfirst]
    exact List.Perm.refl _
  · obtain ⟨before, after, hfiles, hwithout⟩ := files_split (firstFile_eq_some hfirst).1
    rw [hdelete, taken, hfirst]
    simp only [stored, hfiles, hwithout, Option.bind_some, hcontent, Except.toOption,
      Option.toList_some, List.filterMap_append, List.filterMap_cons]
    exact List.perm_middle

/-! ### What a `delete` sees of the storage -/

/-- The two storages are the same to a `delete` of the id. -/
def SameFor (id : String) (s s' : FileDeadLetterStorage getTaskDir) : Prop :=
  s.taskNames = s'.taskNames ∧ ∀ dir, s.file? dir id = s'.file? dir id

theorem SameFor.searchOperations (h : SameFor id s s') (taskNames : List String) :
    s.searchOperations id taskNames = s'.searchOperations id taskNames := by
  induction taskNames with
  | nil => rfl
  | cons taskName taskNames ih =>
    rw [FileDeadLetterStorage.searchOperations, h.2, ih, FileDeadLetterStorage.searchOperations]

theorem SameFor.firstFile (h : SameFor id s s') : s.firstFile id = s'.firstFile id := by
  simp only [FileDeadLetterStorage.firstFile, h.1, h.2]

theorem SameFor.taken (h : SameFor id s s') : s.taken id = s'.taken id := by
  rw [FileDeadLetterStorage.taken, h.firstFile, FileDeadLetterStorage.taken]

theorem SameFor.deleteFails (h : SameFor id s s') (io : Io) :
    s.deleteFails io id = s'.deleteFails io id := by
  rw [FileDeadLetterStorage.deleteFails, operations, h.firstFile, h.searchOperations, h.1,
    FileDeadLetterStorage.deleteFails, operations]

/-- A `delete` changes nothing for another id. -/
theorem sameFor_delete (hok : s.deleteFails io id = false) (h : id' ≠ id) :
    SameFor id' s (s.delete io id).2 := by
  rcases delete_ok hok with ⟨-, hdelete⟩ | ⟨f, entry, hfirst, -, hdelete⟩
  · rw [hdelete]
    exact ⟨rfl, fun _ => rfl⟩
  · rw [hdelete]
    refine ⟨rfl, fun dir => ?_⟩
    have hname := (firstFile_eq_some hfirst).2
    show s.files.find? _ = (s.files.filter _).find? _
    rw [List.find?_filter]
    congr 1
    funext g
    by_cases hg : g.name = id'
    · have hne : g.name ≠ f.name := fun heq => h (hg.symm.trans (heq.trans hname))
      simp [hne]
    · simp [hg]

/-! ### The loop -/

theorem beforeFailure_congr {entries : List DeadLetterEntry}
    (h : ∀ entry ∈ entries, SameFor entry.id s s') (ios : Nat → Io) :
    s.beforeFailure ios entries = s'.beforeFailure ios entries := by
  induction entries generalizing ios with
  | nil => rfl
  | cons entry entries ih =>
    rw [beforeFailure, beforeFailure, (h entry List.mem_cons_self).deleteFails,
      ih fun e he => h e (List.mem_cons_of_mem _ he)]

theorem mem_beforeFailure {entries : List DeadLetterEntry} {ios : Nat → Io}
    (h : entry ∈ s.beforeFailure ios entries) :
    entry ∈ entries ∧ ∃ io, s.deleteFails io entry.id = false := by
  induction entries generalizing ios with
  | nil => cases h
  | cons e entries ih =>
    rw [beforeFailure] at h
    split at h
    · cases h
    · next hok =>
      rcases List.mem_cons.mp h with rfl | h
      · exact ⟨List.mem_cons_self, ios 0, eq_false_of_ne_true hok⟩
      · exact ⟨List.mem_cons_of_mem _ (ih h).1, (ih h).2⟩

/-- **What the loop does, told from the storage as it is before the loop**: it gets to the first
entry whose `delete` fails, and takes what each `delete` before that comes upon. -/
theorem deleteAll_files (s : FileDeadLetterStorage getTaskDir) (ios : Nat → Io)
    {entries : List DeadLetterEntry} (hids : (entries.map DeadLetterEntry.id).Nodup) :
    ((deleteAll s ios entries).1.isOk = true ↔ s.beforeFailure ios entries = entries) ∧
      s.stored.Perm ((s.beforeFailure ios entries).flatMap (fun e => s.taken e.id) ++
        (deleteAll s ios entries).2.stored) := by
  induction entries generalizing s ios with
  | nil => exact ⟨iff_of_true rfl rfl, List.Perm.refl _⟩
  | cons entry entries ih =>
    rw [List.map_cons, List.nodup_cons] at hids
    cases hfails : s.deleteFails (ios 0) entry.id with
    | true =>
      obtain ⟨e, hdelete⟩ := delete_failed hfails
      have hdelete' : DeadLetterStorage.delete s (ios 0) entry.id = (.error e, s) := hdelete
      rw [deleteAll, hdelete', beforeFailure, if_pos hfails]
      exact ⟨iff_of_false (by simp [Except.isOk, Except.toBool]) (by simp), List.Perm.refl _⟩
    | false =>
      -- the ids that are left are other ones, for which nothing has changed
      have hsame : ∀ e ∈ entries, SameFor e.id s (s.delete (ios 0) entry.id).2 := by
        intro e he
        refine sameFor_delete hfails fun heq => hids.1 ?_
        rw [← heq]
        exact List.mem_map_of_mem he
      obtain ⟨hok, hperm⟩ := ih (s.delete (ios 0) entry.id).2 (fun n => ios (n + 1)) hids.2
      rw [← beforeFailure_congr hsame] at hok hperm
      have htaken : (s.beforeFailure (fun n => ios (n + 1)) entries).flatMap
          (fun e => (s.delete (ios 0) entry.id).2.taken e.id) =
          (s.beforeFailure (fun n => ios (n + 1)) entries).flatMap fun e => s.taken e.id := by
        apply List.flatMap_congr
        intro e he
        exact ((hsame e (mem_beforeFailure he).1).taken).symm
      rw [htaken] at hperm
      have hrun : deleteAll s ios (entry :: entries) =
          deleteAll (s.delete (ios 0) entry.id).2 (fun n => ios (n + 1)) entries := by
        have hdelete : DeadLetterStorage.delete s (ios 0) entry.id =
            (.ok (), (s.delete (ios 0) entry.id).2) := delete_of_ok hfails
        rw [deleteAll, hdelete]
      rw [hrun, beforeFailure, if_neg (by simp [hfails]), List.flatMap_cons, List.append_assoc]
      refine ⟨?_, (delete_takes hfails).trans (hperm.append_left _)⟩
      rw [hok, List.cons.injEq, and_iff_right rfl]

/-! ### What is fetched -/

/-- The fetched entries have different ids. -/
theorem fetched_ids {taskId : String} {limit : Nat} {entries : List DeadLetterEntry}
    (h : s.getByTask io taskId limit = .ok entries) :
    (entries.map DeadLetterEntry.id).Nodup := by
  have hfetched : entries.Sublist ((s.files.filter fun f => f.dir = getTaskDir taskId).filterMap
      fun f => f.content.toOption) := by
    rw [getByTask] at h
    split at h
    · obtain ⟨io', -, h⟩ := bind_eq_ok.mp h
      obtain ⟨more, hmore, hsub⟩ := readFiles_sublist h
      rwa [hmore, List.nil_append]
    · cases h
      exact List.nil_sublist _
  have hdir : ∀ e ∈ entries, getTaskDir e.taskId = getTaskDir taskId := by
    intro e he
    obtain ⟨f, hf, hcontent⟩ := List.mem_filterMap.mp (hfetched.subset he)
    obtain ⟨hmem, hdir⟩ := List.mem_filter.mp hf
    rw [← (s.own f hmem e (content_of_toOption hcontent)).1]
    exact of_decide_eq_true hdir
  have hpairwise : entries.Pairwise fun e e' =>
      ¬ (getTaskDir e.taskId = getTaskDir e'.taskId ∧ e.id = e'.id) :=
    s.stored_pairwise.sublist (hfetched.trans (List.filter_sublist.filterMap _))
  rw [List.Nodup, List.pairwise_map]
  refine hpairwise.imp_of_mem fun {e e'} he he' hne hid => ?_
  exact hne ⟨(hdir e he).trans (hdir e' he').symm, hid⟩

/-! ### Safe calls -/

theorem mem_taken : entry ∈ s.taken id ↔
    ∃ f, s.firstFile id = some f ∧ f.content = .ok entry := by
  rw [taken, Option.mem_toList, Option.bind_eq_some_iff]
  constructor
  · intro h
    obtain ⟨f, hf, hcontent⟩ := h
    exact ⟨f, hf, content_of_toOption hcontent⟩
  · intro h
    obtain ⟨f, hf, hcontent⟩ := h
    exact ⟨f, hf, by rw [hcontent]; rfl⟩

theorem taken_of_content (h : ∃ f, s.firstFile id = some f ∧ f.content = .ok entry) :
    s.taken id = [entry] := by
  obtain ⟨f, hf, hcontent⟩ := h
  rw [taken, hf, Option.bind_some, hcontent]
  rfl

/-- A `delete` that does not fail takes nothing only where there is no file. -/
theorem taken_eq_nil_iff (h : s.deleteFails io id = false) :
    s.taken id = [] ↔ s.firstFile id = none := by
  rcases delete_ok h with ⟨hfirst, -⟩ | ⟨f, e, hfirst, hcontent, -⟩
  · exact iff_of_true (by rw [taken, hfirst]; rfl) hfirst
  · refine iff_of_false ?_ (by rw [hfirst]; exact Option.some_ne_none f)
    rw [taken_of_content ⟨f, hfirst, hcontent⟩]
    exact List.cons_ne_nil e []

/-- What is taken has the id of the call. -/
theorem id_of_mem_taken (h : entry ∈ s.taken id) : entry.id = id := by
  obtain ⟨f, hfirst, hcontent⟩ := mem_taken.mp h
  obtain ⟨hmem, hname⟩ := firstFile_eq_some hfirst
  exact (s.own f hmem entry hcontent).2.symm.trans hname

/-- If the fetched entries are taken in all, each is taken by its own `delete`. -/
theorem taken_own {entries : List DeadLetterEntry}
    (h : (entries.flatMap fun e => s.taken e.id).Perm entries) :
    ∀ e ∈ entries, ∃ f, s.firstFile e.id = some f ∧ f.content = .ok e := by
  intro e he
  obtain ⟨e', -, hmem⟩ := List.mem_flatMap.mp (h.mem_iff.mpr he)
  rw [← id_of_mem_taken hmem] at hmem
  exact mem_taken.mp hmem

/-- **In files a call is safe if and only if it fetches nothing, or its deletes are harmless on the
storage as it was.** -/
theorem safe_files_iff (s : FileDeadLetterStorage getTaskDir) (io : Io) (ios : Nat → Io)
    (taskId : String) (limit : Nat) : Safe s io ios taskId limit ↔
      ∀ entries, s.getByTask io taskId limit = .ok entries → s.Harmless ios entries := by
  cases hfetch : s.getByTask io taskId limit with
  | error e => exact iff_of_true (safe_of_fetch_error hfetch) (by simp)
  | ok entries =>
    obtain ⟨hok, hperm⟩ := deleteAll_files s ios (fetched_ids hfetch)
    have hstored : s.stored.Nodup := s.stored_nodup
    rw [safe_iff_of_fetched hfetch]
    have hone : (∀ entries', (Except.ok entries : Result _) = .ok entries' →
        s.Harmless ios entries') ↔ s.Harmless ios entries := by simp
    rw [hone]
    by_cases hall : s.beforeFailure ios entries = entries
    · have hloop : (deleteAll s ios entries).1.isOk = true := hok.mpr hall
      rw [hall] at hperm
      constructor
      · intro h
        have htaken := (List.perm_append_right_iff _).mp (hperm.symm.trans (h.1 hloop))
        exact ⟨fun _ => taken_own htaken, fun hne => absurd hall hne⟩
      · intro h
        refine ⟨fun _ => ?_, fun hfail => absurd (hloop.symm.trans hfail) (by simp)⟩
        have htaken : (entries.flatMap fun e => s.taken e.id) = entries :=
          (List.flatMap_congr fun e he => taken_of_content (h.succeeding hall e he)).trans
            (List.flatMap_singleton' entries)
        rw [htaken] at hperm
        exact hperm
    · have hloop : (deleteAll s ios entries).1.isOk = false :=
        eq_false_of_ne_true fun h => hall (hok.mp h)
      constructor
      · -- an entry that has been taken is not there any more, since it is in no second file
        intro h
        refine ⟨fun heq => absurd heq hall, fun _ e he => ?_⟩
        obtain ⟨-, io', hdeleted⟩ := mem_beforeFailure he
        rw [← taken_eq_nil_iff hdeleted, List.eq_nil_iff_forall_not_mem]
        intro x hx
        have htaken : x ∈ (s.beforeFailure ios entries).flatMap fun e => s.taken e.id :=
          List.mem_flatMap.mpr ⟨e, he, hx⟩
        have hleft := h.2 hloop x (hperm.mem_iff.mpr (List.mem_append_left _ htaken))
        exact (List.nodup_append.mp (hperm.nodup_iff.mp hstored)).2.2 x htaken x hleft rfl
      · intro h
        refine ⟨fun hsucceeds => absurd (hloop.symm.trans hsucceeds) (by simp), fun _ x hx => ?_⟩
        have hnone : ((s.beforeFailure ios entries).flatMap fun e => s.taken e.id) = [] := by
          rw [List.flatMap_eq_nil_iff]
          intro e he
          obtain ⟨-, io', hdeleted⟩ := mem_beforeFailure he
          exact (taken_eq_nil_iff hdeleted).mpr (h.failing hall e he)
        rw [hnone, List.nil_append] at hperm
        exact hperm.mem_iff.mp hx

end FileDeadLetterStorage

/-- **When a failed call leaves the storage as it was and a successful one removes what it
returns.** -/
theorem reprocess_task_iff {Dir : Type} [DecidableEq Dir] {getTaskDir : String → Dir}
    (memory : MemoryDeadLetterStorage) (files : FileDeadLetterStorage getTaskDir) (io : Io)
    (ios : Nat → Io) (taskId : String) (limit : Nat) :
    (Safe memory io ios taskId limit ↔
      memory.withIdsOf (memory.getByTask taskId limit) = memory.getByTask taskId limit) ∧
    (Safe files io ios taskId limit ↔
      ∀ entries, files.getByTask io taskId limit = .ok entries → files.Harmless ios entries) :=
  ⟨memory.safe_memory_iff io ios taskId limit, files.safe_files_iff io ios taskId limit⟩

/-! ### Two entries -/

namespace FileDeadLetterStorage

def bookFile (id : String) : EntryFile String where
  dir := "books"
  name := id
  content := .ok (MemoryDeadLetterStorage.heartbeatEntry id)

/-- Two entries of the task `books` -/
def twoBooks : FileDeadLetterStorage id where
  taskNames := ["books"]
  dirs := ["books"]
  files := [bookFile "a", bookFile "b"]
  housed f hf := by
    have hdir : f = bookFile "a" ∨ f = bookFile "b" := by simpa using hf
    rcases hdir with rfl | rfl <;> exact List.mem_singleton_self _
  distinct := by simp [bookFile]
  own f hf entry hentry := by
    have hdir : f = bookFile "a" ∨ f = bookFile "b" := by simpa using hf
    rcases hdir with rfl | rfl
    · cases hentry
      exact ⟨rfl, rfl⟩
    · cases hentry
      exact ⟨rfl, rfl⟩

/-- The second `delete` finds its file and is refused. -/
def refusedAtSecond : Nat → Io
  | 1 => some (4, "Permission denied (os error 13)")
  | _ => none

/-- The first entry is gone, and the call has failed. -/
theorem first_entry_lost :
    ¬ ∀ (Dir : Type) [DecidableEq Dir] (getTaskDir : String → Dir)
      (s : FileDeadLetterStorage getTaskDir) (io : Io) (ios : Nat → Io) (taskId : String)
      (limit : Nat), Safe s io ios taskId limit := by
  intro h
  have hrun : reprocessTask twoBooks none refusedAtSecond "books" 2 =
      (.error (.io "Permission denied (os error 13)"), twoBooks.without "books" "a") := rfl
  have hstored := (h String id twoBooks none refusedAtSecond "books" 2).failed _ _ hrun
  have hleft := hstored (MemoryDeadLetterStorage.heartbeatEntry "a") List.mem_cons_self
  have hids : "a" ∈ (twoBooks.without "books" "a").stored.map DeadLetterEntry.id :=
    List.mem_map_of_mem hleft
  revert hids
  decide

end FileDeadLetterStorage

end Recovery

end MeiliBridge
