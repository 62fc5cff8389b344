import MeiliBridge.Recovery.DeadLetter

/-!
# Reprocessing dead letters

`reprocess_task` of the recovery queue over its storages: it fetches entries and then deletes them
one by one. `FileDeadLetterStorage` keeps each entry in a file of its own, in a directory of its
task; the I/O of a call can fail at any operation, and always before a file is removed.

What a task's name makes of the base directory is left open: several names may lead to one
directory, and a directory need not be listed in the base directory.
-/

set_option autoImplicit false

namespace MeiliBridge

namespace Recovery

/-- What the I/O of a call meets: it fails after some operations, with a message, or never. -/
abbrev Io := Option (Nat × String)

def Io.next : Io → Result Io
  | none => .ok none
  | some (0, msg) => .error (.io msg)
  | some (n + 1, msg) => .ok (some (n, msg))

/-- The calls of the trait that reprocessing needs. -/
class DeadLetterStorage (S : Type) where
  /-- the entries that are in the storage -/
  stored : S → List DeadLetterEntry
  getByTask : S → Io → String → Nat → Result (List DeadLetterEntry)
  delete : S → Io → String → Result Unit × S

section

variable {S : Type} [DeadLetterStorage S]

open DeadLetterStorage

/-- The loop over the fetched entries, with the I/O of each `delete` -/
def deleteAll : S → (Nat → Io) → List DeadLetterEntry → Result Unit × S
  | s, _, [] => (.ok (), s)
  | s, ios, entry :: entries =>
    match delete s (ios 0) entry.id with
    | (.ok (), s') => deleteAll s' (fun n => ios (n + 1)) entries
    | (.error e, s') => (.error e, s')

/-- `reprocess_task` -/
def reprocessTask (s : S) (io : Io) (ios : Nat → Io) (taskId : String) (limit : Nat) :
    Result (List DeadLetterEntry) × S :=
  match getByTask s io taskId limit with
  | .error e => (.error e, s)
  | .ok entries =>
    match deleteAll s ios entries with
    | (.ok (), s') => (.ok entries, s')
    | (.error e, s') => (.error e, s')

/-- A call that fails leaves every entry, and one that succeeds removes what it returns. -/
structure Safe (s : S) (io : Io) (ios : Nat → Io) (taskId : String) (limit : Nat) : Prop where
  failed : ∀ e s', reprocessTask s io ios taskId limit = (.error e, s') →
    ∀ entry ∈ stored s, entry ∈ stored s'
  returned : ∀ entries s', reprocessTask s io ios taskId limit = (.ok entries, s') →
    (stored s).Perm (entries ++ stored s')

end

/-! ## In memory -/

namespace MemoryDeadLetterStorage

/-- `get_by_task` -/
def getByTask (s : MemoryDeadLetterStorage) (taskId : String) (limit : Nat) :
    List DeadLetterEntry :=
  (s.entries.filter (·.taskId == taskId)).take limit

instance : DeadLetterStorage MemoryDeadLetterStorage where
  stored := entries
  getByTask s _ taskId limit := .ok (s.getByTask taskId limit)
  delete s _ id := (.ok (), s.delete id)

end MemoryDeadLetterStorage

/-! ## In files -/

structure EntryFile (Dir : Type) where
  dir : Dir
  /-- the name without its `.json` -/
  name : String
  /-- what `serde_json` makes of it -/
  content : Except String DeadLetterEntry

/-- A file with an entry is where `store` has put it. -/
structure FileDeadLetterStorage {Dir : Type} (getTaskDir : String → Dir) where
  /-- the directories in the base directory, as they are listed -/
  taskNames : List String
  /-- the directories there are -/
  dirs : List Dir
  /-- the files of all directories; those of one as they are listed -/
  files : List (EntryFile Dir)
  housed : ∀ f ∈ files, f.dir ∈ dirs
  distinct : files.Pairwise fun f g => ¬ (f.dir = g.dir ∧ f.name = g.name)
  own : ∀ f ∈ files, ∀ entry, f.content = .ok entry →
    f.dir = getTaskDir entry.taskId ∧ f.name = entry.id

namespace FileDeadLetterStorage

variable {Dir : Type} [DecidableEq Dir] {getTaskDir : String → Dir}

def stored (s : FileDeadLetterStorage getTaskDir) : List DeadLetterEntry :=
  s.files.filterMap fun f => f.content.toOption

/-- The loop over the files of a directory. A name that is only an extension has none. -/
def readFiles (limit : Nat) : Io → List DeadLetterEntry → List (EntryFile Dir) →
    Result (List DeadLetterEntry)
  | io, entries, [] => do
    let _ ← io.next
    pure entries
  | io, entries, f :: files => do
    let io ← io.next
    if limit ≤ entries.length then pure entries
    else if f.name = "" then readFiles limit io entries files
    else do
      let io ← io.next
      match f.content with
      | .ok entry => readFiles limit io (entries ++ [entry]) files
      | .error _ => readFiles limit io entries files

/-- `get_by_task` -/
def getByTask (s : FileDeadLetterStorage getTaskDir) (io : Io) (taskId : String) (limit : Nat) :
    Result (List DeadLetterEntry) :=
  if getTaskDir taskId ∈ s.dirs then do
    let io ← io.next
    readFiles limit io [] (s.files.filter fun f => f.dir = getTaskDir taskId)
  else .ok []

def file? (s : FileDeadLetterStorage getTaskDir) (dir : Dir) (id : String) :
    Option (EntryFile Dir) :=
  s.files.find? fun f => f.dir = dir ∧ f.name = id

/-- The loop of `get` over the listed directories: the entry that is found, and the I/O that is left
to the call -/
def search (s : FileDeadLetterStorage getTaskDir) (id : String) : Io → List String →
    Result (Option (DeadLetterEntry × Io))
  | io, [] => do
    let _ ← io.next
    pure none
  | io, taskName :: taskNames => do
    let io ← io.next
    let io ← io.next
    match s.file? (getTaskDir taskName) id with
    | some f => do
      let io ← io.next
      match f.content with
      | .ok entry => pure (some (entry, io))
      | .error msg => throw (.serialization msg)
    | none => search s id io taskNames

/-- `get` -/
def get (s : FileDeadLetterStorage getTaskDir) (io : Io) (id : String) :
    Result (Option (DeadLetterEntry × Io)) := do
  let io ← io.next
  s.search id io s.taskNames

def without (s : FileDeadLetterStorage getTaskDir) (dir : Dir) (id : String) :
    FileDeadLetterStorage getTaskDir where
  taskNames := s.taskNames
  dirs := s.dirs
  files := s.files.filter fun f => ¬ (f.dir = dir ∧ f.name = id)
  housed f hf := s.housed f (List.mem_filter.mp hf).1
  distinct := s.distinct.filter _
  own f hf := s.own f (List.mem_filter.mp hf).1

/-- `delete` -/
def delete (s : FileDeadLetterStorage getTaskDir) (io : Io) (id : String) :
    Result Unit × FileDeadLetterStorage getTaskDir :=
  match s.get io id with
  | .error e => (.error e, s)
  | .ok none => (.ok (), s)
  | .ok (some (entry, io)) =>
    match io.next with
    | .error e => (.error e, s)
    | .ok _ =>
      if (s.file? (getTaskDir entry.taskId) id).isSome then
        (.ok (), s.without (getTaskDir entry.taskId) id)
      else (.error (.io "No such file or directory (os error 2)"), s)

instance : DeadLetterStorage (FileDeadLetterStorage getTaskDir) where
  stored := stored
  getByTask := getByTask
  delete := delete

end FileDeadLetterStorage

end Recovery

end MeiliBridge
