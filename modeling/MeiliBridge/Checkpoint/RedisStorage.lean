import Mathlib.Data.List.Perm.Basic
import MeiliBridge.Checkpoint.Storage
import MeiliBridge.Lib.Redis

/-!
# The two checkpoint storages

`RedisStorage` over a database that others use as well, beside `MemoryStorage`, which is a
`CheckpointMap`. Redis forgets a checkpoint a week after its last save: `storages_agree` compares it
with a memory that leaves out what is older. `list` takes the key prefix as a pattern, which finds
the storage's own keys and no others when no character of the prefix has a meaning in a pattern.
-/

set_option autoImplicit false

namespace MeiliBridge

open Redis

structure RedisStorage where
  keyPrefix : String

namespace RedisStorage

/-- What a text in the database stands for: a checkpoint, or what the decoder says of it. -/
abbrev Contents := Except String Checkpoint

abbrev Database := Keyspace Int Contents

def new (configPrefix : String) : RedisStorage := ⟨s!"{configPrefix}:checkpoint:"⟩

def makeKey (s : RedisStorage) (taskId : String) : String := s.keyPrefix ++ taskId

/-- 7 days -/
def ttl : Nat := 604800

/-- When a checkpoint that is saved at the time `t` expires. -/
def expiry (t : Nat) : Nat := t + ttl * 1000

variable (s : RedisStorage)

/-- `save` at the time `now` -/
def save (now : Nat) (db : Database) (cp : Checkpoint) : Database :=
  setEx db now (s.makeKey cp.taskId) (.ok cp) ttl

/-- `load` -/
def load (db : Database) (taskId : String) : Result (Option Checkpoint) :=
  match get db (s.makeKey taskId) with
  | some (.ok cp) => .ok (some cp)
  | some (.error msg) => .error (.serialization msg)
  | none => .ok none

/-- `delete` -/
def delete (db : Database) (taskId : String) : Database := del db (s.makeKey taskId)

/-- `list`. What is no checkpoint is logged and left out. -/
def list (db : Database) : List Checkpoint :=
  (keys db (s.keyPrefix ++ "*")).filterMap fun key =>
    match get db key with
    | some (.ok cp) => some cp
    | _ => none

/-! ## Both storages side by side -/

inductive StorageCall where
  | save (cp : Checkpoint)
  | load (taskId : String)
  | delete (taskId : String)
  | list

inductive StorageAnswer where
  | done
  | loaded (r : Result (Option Checkpoint))
  | listed (cps : List Checkpoint)

/-- The same answer, a list in whatever order. -/
inductive SameAnswer : StorageAnswer → StorageAnswer → Prop
  | done : SameAnswer .done .done
  | loaded (r : Result (Option Checkpoint)) : SameAnswer (.loaded r) (.loaded r)
  | listed {cps cps' : List Checkpoint} (h : cps.Perm cps') :
    SameAnswer (.listed cps) (.listed cps')

/-- A call of both storages, or what other clients do to the database. -/
inductive Input where
  | call (c : StorageCall)
  | others (change : Database → Database)

structure Both where
  now : Nat
  memory : CheckpointMap
  db : Database
  /-- when each checkpoint of the memory was last saved -/
  saved : Dict Nat

def memoryCall (m : CheckpointMap) : StorageCall → StorageAnswer × CheckpointMap
  | .save cp => (.done, m.save cp)
  | .load taskId => (.loaded (.ok (m.lookup taskId)), m)
  | .delete taskId => (.done, m.delete taskId)
  | .list => (.listed m.list, m)

def redisCall (now : Nat) (db : Database) : StorageCall → StorageAnswer × Database
  | .save cp => (.done, s.save now db cp)
  | .load taskId => (.loaded (s.load db taskId), db)
  | .delete taskId => (.done, s.delete db taskId)
  | .list => (.listed (s.list db), db)

def savedAfter (now : Nat) (saved : Dict Nat) : StorageCall → Dict Nat
  | .save cp => saved.insert cp.taskId now
  | .delete taskId => saved.erase taskId
  | .load _ | .list => saved

/-- Time passes, and what has expired leaves the database. -/
def Both.wait (b : Both) (delay : Nat) : Both :=
  { b with now := b.now + delay, db := expire (b.now + delay) b.db }

def Both.handle (b : Both) : Input → Both
  | .call c =>
    ⟨b.now, (memoryCall b.memory c).2, (s.redisCall b.now b.db c).2, savedAfter b.now b.saved c⟩
  | .others change => { b with db := change b.db }

/-- Some time, and then an input. -/
def Both.step (b : Both) (x : Nat × Input) : Both := (b.wait x.1).handle s x.2

def Both.run (b : Both) (inputs : List (Nat × Input)) : Both :=
  inputs.foldl (fun b x => b.step s x) b

/-- The checkpoint was saved less than a week ago. -/
def Both.recent (b : Both) (cp : Checkpoint) : Bool :=
  (b.saved.lookup cp.taskId).any fun t => decide (b.now < expiry t)

/-- What the memory answers if it leaves out what was saved a week ago or earlier. -/
def Both.recentCall (b : Both) : StorageCall → StorageAnswer
  | .save _ | .delete _ => .done
  | .load taskId => .loaded (.ok ((b.memory.lookup taskId).filter b.recent))
  | .list => .listed (b.memory.list.filter b.recent)

/-- Both storages give the same answer. -/
def Both.Agrees (b : Both) (x : Nat × Input) : Prop :=
  ∀ c, x.2 = .call c →
    SameAnswer (memoryCall b.memory c).1 (s.redisCall (b.now + x.1) (b.wait x.1).db c).1

/-- Redis gives the answer of the memory without what was saved a week ago or earlier. -/
def Both.AgreesOnRecent (b : Both) (x : Nat × Input) : Prop :=
  ∀ c, x.2 = .call c →
    SameAnswer ((b.wait x.1).recentCall c) (s.redisCall (b.now + x.1) (b.wait x.1).db c).1

/-- The key is one of this storage. -/
def Owns (key : String) : Prop := Glob.bytes s.keyPrefix <+: Glob.bytes key

/-- The others do nothing to the keys of this storage. -/
def Input.LeavesAlone : Input → Prop
  | .call _ => True
  | .others change => ∀ db key, s.Owns key → (change db).lookup key = db.lookup key

/-- The prefix, read as a pattern, finds the storage's own keys and no others. -/
def FindsOwn (db : Database) : Prop :=
  ∀ key ∈ db, Glob.keyMatches (s.keyPrefix ++ "*") key = true ↔ s.Owns key

/-- A list is asked of a database in which the prefix finds the storage's own keys. -/
def Both.ListsOwn (b : Both) (x : Nat × Input) : Prop :=
  x.2 = .call .list → s.FindsOwn (b.wait x.1).db

/-! ## The database holds what the memory holds, for a week -/

/-- What a database holds at the time `now` of a task's checkpoint with this deadline. -/
def held (now : Nat) (cp : Option Checkpoint) (deadline : Option Nat) :
    Option (Entry Int Contents) :=
  cp.bind fun cp => deadline.bind fun d =>
    if now < d then some ⟨.string (.ok cp), some d⟩ else none

structure Both.Synced (b : Both) : Prop where
  saved : ∀ taskId, (b.saved.lookup taskId).isSome = (b.memory.lookup taskId).isSome
  entries : ∀ taskId, b.db.lookup (s.makeKey taskId) =
    held b.now (b.memory.lookup taskId) ((b.saved.lookup taskId).map expiry)
  owned : ∀ key ∈ b.db, s.Owns key → ∃ taskId, key = s.makeKey taskId

variable {s} {b : Both}

theorem makeKey_inj {taskId other : String} :
    s.makeKey taskId = s.makeKey other ↔ taskId = other := by
  unfold makeKey
  constructor
  · intro h
    have hlist := congrArg String.toList h
    rw [String.toList_append, String.toList_append] at hlist
    exact String.toList_inj.mp (List.append_cancel_left hlist)
  · exact fun h => h ▸ rfl

theorem owns_makeKey (taskId : String) : s.Owns (s.makeKey taskId) := by
  rw [Owns, makeKey, Glob.bytes_append]
  exact List.prefix_append _ _

theorem save_eq (now : Nat) (db : Database) (cp : Checkpoint) :
    s.save now db cp =
      db.insert (s.makeKey cp.taskId) ⟨.string (.ok cp), some (expiry now)⟩ := rfl

theorem lt_expiry (now : Nat) : now < expiry now := by
  unfold expiry ttl
  omega

theorem held_some (now : Nat) (cp : Checkpoint) (d : Nat) :
    held now (some cp) (some d) =
      if now < d then some ⟨.string (.ok cp), some d⟩ else none := rfl

theorem held_later {now later : Nat} (h : now ≤ later) (cp : Option Checkpoint)
    (deadline : Option Nat) :
    (held now cp deadline).filter (Entry.live later) = held later cp deadline := by
  cases cp with
  | none => rfl
  | some cp =>
    cases deadline with
    | none => rfl
    | some d =>
      by_cases hlater : later < d
      · have hnow : now < d := lt_of_le_of_lt h hlater
        simp [held, Entry.live, hlater, hnow]
      · by_cases hnow : now < d
        · simp [held, Entry.live, hlater, hnow]
        · simp [held, hlater, hnow]

theorem Both.Synced.wait (h : b.Synced s) (delay : Nat) : (b.wait delay).Synced s := by
  refine ⟨h.saved, fun taskId => ?_, fun key hkey hown => ?_⟩
  · rw [Both.wait, expire, AList.lookup_filterEntries, h.entries]
    exact held_later (Nat.le_add_right _ _) _ _
  · refine h.owned key ?_ hown
    have hsome := AList.lookup_isSome.mpr hkey
    rw [Both.wait, expire, AList.lookup_filterEntries] at hsome
    refine AList.lookup_isSome.mp ?_
    cases hlookup : b.db.lookup key with
    | none => simp [hlookup] at hsome
    | some entry => rfl

theorem Both.Synced.save (h : b.Synced s) (cp : Checkpoint) :
    (b.handle s (.call (.save cp))).Synced s := by
  refine ⟨fun taskId => ?_, fun taskId => ?_, fun key hkey hown => ?_⟩
  · simp only [Both.handle, memoryCall, savedAfter, CheckpointMap.lookup_save]
    by_cases htask : taskId = cp.taskId
    · subst htask
      simp
    · rw [if_neg htask, AList.lookup_insert_ne htask]
      exact h.saved taskId
  · simp only [Both.handle, memoryCall, redisCall, savedAfter, CheckpointMap.lookup_save, save_eq]
    by_cases htask : taskId = cp.taskId
    · subst htask
      rw [AList.lookup_insert, AList.lookup_insert, if_pos rfl, Option.map_some, held,
        Option.bind_some, Option.bind_some, if_pos (lt_expiry b.now)]
    · have hkey : s.makeKey taskId ≠ s.makeKey cp.taskId := mt makeKey_inj.mp htask
      rw [AList.lookup_insert_ne hkey, AList.lookup_insert_ne htask, if_neg htask]
      exact h.entries taskId
  · rcases (AList.mem_insert _).mp hkey with rfl | hkey
    · exact ⟨cp.taskId, rfl⟩
    · exact h.owned key hkey hown

theorem Both.Synced.delete (h : b.Synced s) (taskId : String) :
    (b.handle s (.call (.delete taskId))).Synced s := by
  refine ⟨fun other => ?_, fun other => ?_, fun key hkey hown => ?_⟩
  · simp only [Both.handle, memoryCall, savedAfter, CheckpointMap.lookup_delete]
    by_cases htask : other = taskId
    · subst htask
      simp [AList.lookup_erase]
    · rw [if_neg htask, AList.lookup_erase_ne htask]
      exact h.saved other
  · simp only [Both.handle, memoryCall, redisCall, savedAfter, CheckpointMap.lookup_delete,
      RedisStorage.delete, del]
    by_cases htask : other = taskId
    · subst htask
      rw [AList.lookup_erase, AList.lookup_erase, if_pos rfl]
      rfl
    · have hkey : s.makeKey other ≠ s.makeKey taskId := mt makeKey_inj.mp htask
      rw [AList.lookup_erase_ne hkey, AList.lookup_erase_ne htask, if_neg htask]
      exact h.entries other
  · exact h.owned key (AList.mem_erase.mp hkey).2 hown

theorem Both.Synced.handle (h : b.Synced s) {input : Input} (halone : input.LeavesAlone s) :
    (b.handle s input).Synced s := by
  cases input with
  | call c =>
    cases c with
    | save cp => exact h.save cp
    | load taskId => exact h
    | delete taskId => exact h.delete taskId
    | list => exact h
  | others change =>
    refine ⟨h.saved, fun taskId => ?_, fun key hkey hown => ?_⟩
    · exact (halone b.db _ (owns_makeKey taskId)).trans (h.entries taskId)
    · refine h.owned key ?_ hown
      have hsome := AList.lookup_isSome.mpr hkey
      rw [Both.handle, halone b.db key hown] at hsome
      exact AList.lookup_isSome.mp hsome

theorem Both.Synced.step (h : b.Synced s) {x : Nat × Input} (halone : x.2.LeavesAlone s) :
    (b.step s x).Synced s :=
  (h.wait x.1).handle halone

theorem Both.Synced.run (h : b.Synced s) {inputs : List (Nat × Input)}
    (halone : ∀ x ∈ inputs, x.2.LeavesAlone s) : (b.run s inputs).Synced s := by
  induction inputs using List.reverseRecOn with
  | nil => exact h
  | append_singleton inputs x ih =>
    have ih := ih fun y hy => halone y (List.mem_append_left _ hy)
    have hstep := ih.step (halone x (List.mem_append_right _ (List.mem_singleton_self _)))
    simpa [Both.run] using hstep

/-! ## The answers -/

/-- The database has the recent checkpoints of the memory. -/
theorem Both.Synced.lookup_recent (h : b.Synced s) (taskId : String) :
    b.db.lookup (s.makeKey taskId) = ((b.memory.lookup taskId).filter b.recent).bind fun cp =>
      (b.saved.lookup taskId).map fun t => ⟨.string (.ok cp), some (expiry t)⟩ := by
  rw [h.entries]
  cases hmemory : b.memory.lookup taskId with
  | none => rfl
  | some cp =>
    have htask := b.memory.keyed taskId cp hmemory
    subst htask
    cases hsaved : b.saved.lookup cp.taskId with
    | none => simp [held]
    | some t =>
      have hrecent : b.recent cp = decide (b.now < expiry t) := by
        rw [Both.recent, hsaved, Option.any_some]
      rw [Option.map_some, held_some]
      by_cases hnow : b.now < expiry t
      · rw [if_pos hnow, Option.filter_some_pos (hrecent.trans (decide_eq_true hnow)),
          Option.bind_some, Option.map_some]
      · rw [if_neg hnow, Option.filter_some_neg (hrecent.trans (decide_eq_false hnow)),
          Option.bind_none]

theorem Both.Synced.get_recent (h : b.Synced s) (taskId : String) :
    Redis.get b.db (s.makeKey taskId) = ((b.memory.lookup taskId).filter b.recent).map .ok := by
  have hsaved := h.saved taskId
  rw [Redis.get, h.lookup_recent]
  cases hmemory : b.memory.lookup taskId with
  | none => rfl
  | some cp =>
    rw [hmemory] at hsaved
    obtain ⟨t, ht⟩ := Option.isSome_iff_exists.mp hsaved
    by_cases hrecent : b.recent cp = true
    · simp [Option.filter, hrecent, ht]
    · simp [Option.filter, hrecent]

theorem Both.Synced.load (h : b.Synced s) (taskId : String) :
    s.load b.db taskId = .ok ((b.memory.lookup taskId).filter b.recent) := by
  rw [RedisStorage.load, h.get_recent]
  cases (b.memory.lookup taskId).filter b.recent with
  | none => rfl
  | some cp => rfl

/-- A recent checkpoint of the memory is one that the database has. -/
theorem Both.Synced.mem_recent (h : b.Synced s) {cp : Checkpoint} :
    cp ∈ b.memory.list.filter b.recent ↔
      Redis.get b.db (s.makeKey cp.taskId) = some (.ok cp) := by
  rw [List.mem_filter, b.memory.mem_list, h.get_recent]
  cases hmemory : b.memory.lookup cp.taskId with
  | none => simp
  | some cp' =>
    simp only [Option.map_eq_some_iff, Option.filter_eq_some_iff, Option.some.injEq,
      Except.ok.injEq, exists_eq_right]

/-- A list by the storage's own keys has the recent checkpoints of the memory. -/
theorem Both.Synced.list (h : b.Synced s) (hown : s.FindsOwn b.db) :
    (b.memory.list.filter b.recent).Perm (s.list b.db) := by
  -- the keys of the list are those of the recent checkpoints
  have hkeys : ((b.memory.list.filter b.recent).map fun cp => s.makeKey cp.taskId).Perm
      (keys b.db (s.keyPrefix ++ "*")) := by
    refine (List.perm_ext_iff_of_nodup ?_ ?_).mpr fun key => ?_
    · refine List.Nodup.map_on (fun cp hcp cp' hcp' heq => ?_) (b.memory.nodup_list.filter _)
      exact b.memory.eq_of_mem_list (List.mem_filter.mp hcp).1 (List.mem_filter.mp hcp').1
        (makeKey_inj.mp heq)
    · exact b.db.keys_nodup.filter _
    · rw [List.mem_map, keys, List.mem_filter]
      constructor
      · rintro ⟨cp, hcp, rfl⟩
        have hget := h.mem_recent.mp hcp
        have hmem : s.makeKey cp.taskId ∈ b.db := by
          refine AList.lookup_isSome.mp ?_
          cases hlookup : b.db.lookup (s.makeKey cp.taskId) with
          | none => simp [Redis.get, hlookup] at hget
          | some entry => rfl
        exact ⟨AList.mem_keys.mp hmem, (hown _ hmem).mpr (owns_makeKey _)⟩
      · rintro ⟨hkey, hmatch⟩
        have hmem := AList.mem_keys.mpr hkey
        obtain ⟨taskId, rfl⟩ := h.owned key hmem ((hown key hmem).mp hmatch)
        have hsome := AList.lookup_isSome.mpr hmem
        rw [h.lookup_recent] at hsome
        cases hmemory : (b.memory.lookup taskId).filter b.recent with
        | none => simp [hmemory] at hsome
        | some cp =>
          obtain ⟨hlookup, hrecent⟩ := Option.filter_eq_some_iff.mp hmemory
          have htask := b.memory.keyed taskId cp hlookup
          subst htask
          exact ⟨cp, List.mem_filter.mpr ⟨b.memory.mem_list.mpr hlookup, hrecent⟩, rfl⟩
  refine List.Perm.trans (List.Perm.of_eq ?_) (hkeys.filterMap _)
  rw [List.filterMap_map, List.filterMap_congr (g := some), List.filterMap_some]
  intro cp hcp
  rw [Function.comp_apply, h.mem_recent.mp hcp]

theorem Both.Synced.agreesOnRecent (h : b.Synced s) {x : Nat × Input} (hown : b.ListsOwn s x) :
    b.AgreesOnRecent s x := by
  have hwait := h.wait x.1
  intro c hc
  cases c with
  | save cp => exact .done
  | delete taskId => exact .done
  | load taskId =>
    simp only [recentCall, redisCall, hwait.load]
    exact .loaded _
  | list => exact .listed (hwait.list (hown hc))

/-- A prefix without characters that have a meaning in a pattern finds the storage's own keys. -/
theorem findsOwn_of_literal (h : Glob.Literal s.keyPrefix) (db : Database) : s.FindsOwn db :=
  fun key _ => Glob.keyMatches_literal h key

/-- Nothing is stored yet, in a database that may hold keys of others. -/
def start (db : Database) : Both := ⟨0, .empty, db, ∅⟩

theorem synced_start {db : Database} (hdb : ∀ key ∈ db, ¬ s.Owns key) : (start db).Synced s := by
  refine ⟨fun taskId => rfl, fun taskId => ?_, fun key hkey hown => absurd hown (hdb key hkey)⟩
  exact AList.lookup_eq_none.mpr fun hkey => hdb _ hkey (owns_makeKey taskId)

/-- **The two storages agree on what was saved less than a week ago**, in every run, when the lists
are by a prefix that finds the storage's own keys. -/
theorem storages_agree (db : Database) (hdb : ∀ key ∈ db, ¬ s.Owns key)
    (inputs : List (Nat × Input)) (halone : ∀ x ∈ inputs, x.2.LeavesAlone s) :
    ∀ before x, before ++ [x] <+: inputs → ((start db).run s before).ListsOwn s x →
      ((start db).run s before).AgreesOnRecent s x := by
  intro before x hx hown
  refine ((synced_start hdb).run fun y hy => halone y ?_).agreesOnRecent hown
  exact hx.subset (List.mem_append_left _ hy)

/-! ## A checkpoint that expires -/

def bookCheckpoint : Checkpoint := ⟨"3c9", "books", .postgreSQL "0/10", 0, .null⟩

/-- The checkpoint is saved, and then this call comes. -/
def savedThen (delay : Nat) (c : StorageCall) : List (Nat × Input) :=
  [(0, .call (.save bookCheckpoint)), (delay, .call c)]

theorem savedThen_alone {delay : Nat} {c : StorageCall} :
    ∀ x ∈ savedThen delay c, x.2.LeavesAlone s := by
  intro x hx
  rcases List.mem_pair.mp hx with rfl | rfl
  · trivial
  · trivial

theorem expiry_le {t now : Nat} (h : t ≤ now) : ¬ now + ttl * 1000 < expiry t := by
  unfold expiry
  omega

/-- A checkpoint of a week ago is not recent. -/
theorem not_recent {cp : Checkpoint} {t week : Nat} (hsaved : b.saved.lookup cp.taskId = some t)
    (hweek : ¬ b.now + week < expiry t) : (b.wait week).recent cp = false := by
  rw [Both.recent, Both.wait, hsaved, Option.any_some, decide_eq_false_iff_not]
  exact hweek

/-- A checkpoint that is saved once is gone from the database a week later. -/
theorem expired_not_loaded :
    ¬ ∀ (s : RedisStorage) (db : Database) (inputs : List (Nat × Input)),
      (∀ key ∈ db, ¬ s.Owns key) → (∀ x ∈ inputs, x.2.LeavesAlone s) →
      ∀ before x, before ++ [x] <+: inputs → ((start db).run s before).Agrees s x := by
  intro hall
  have hempty : ∀ key ∈ (∅ : Database), ¬ (new "app").Owns key :=
    fun key h => absurd h (AList.notMem_empty key)
  have hagrees := hall (new "app") ∅ (savedThen (ttl * 1000) (.load "books")) hempty savedThen_alone
    [(0, .call (.save bookCheckpoint))] _ (List.prefix_refl _)
  set b := (start ∅).step (new "app") (0, .call (.save bookCheckpoint))
  have hsynced : b.Synced (new "app") := (synced_start hempty).step trivial
  have hmemory : b.memory.lookup "books" = some bookCheckpoint := CheckpointMap.lookup_save _ _ _
  have hold : (b.wait (ttl * 1000)).recent bookCheckpoint = false :=
    not_recent (AList.lookup_insert _) (expiry_le (Nat.zero_le _))
  have hnone : ((b.wait (ttl * 1000)).memory.lookup "books").filter (b.wait (ttl * 1000)).recent =
      none := by
    rw [Both.wait, hmemory]
    exact Option.filter_some_neg hold
  have hload : (new "app").load (b.wait (ttl * 1000)).db "books" = .ok none := by
    rw [(hsynced.wait (ttl * 1000)).load, hnone]
  have hsame : SameAnswer (.loaded (.ok (b.memory.lookup "books")))
      (.loaded ((new "app").load (b.wait (ttl * 1000)).db "books")) := hagrees (.load "books") rfl
  rw [hmemory, hload] at hsame
  cases hsame

/-- A checkpoint that is listed after five milliseconds. -/
theorem storages_agree_books :
    ((start ∅).run (new "app") [(0, .call (.save bookCheckpoint))]).AgreesOnRecent (new "app")
      (5, .call .list) := by
  refine storages_agree ∅ (fun key h => absurd h (AList.notMem_empty key)) (savedThen 5 .list)
    savedThen_alone _ _ (List.prefix_refl _) fun _ => findsOwn_of_literal (fun b hb => ?_) _
  have hall := List.all_eq_true.mp (show (Glob.bytes "app:checkpoint:").all
    (fun b => b != 42 && b != 63 && b != 91 && b != 92) = true from rfl) b hb
  simpa [and_assoc] using hall

end RedisStorage

end MeiliBridge
