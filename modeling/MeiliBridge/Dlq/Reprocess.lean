import Mathlib.Logic.Relation
import MeiliBridge.Dlq.RedisIndex
import MeiliBridge.Lib.Trans

/-!
# Handing dead letter entries over for reprocessing

`reprocess_entries` fetches the entries of a task and then updates, sends and removes one after the
other. Each of these is a step of its own: other calls, `add_failed_event` and `clear_task` run in
between, and each call to the storage or the channel may fail. (A call that is dropped while it
waits is one whose current step fails.)

The ids that were filed, cleared and left behind by a removal that failed are not part of the
program: they record what has happened.
-/

set_option autoImplicit false

namespace MeiliBridge

open InMemoryDlqStorage Trans.Machine

namespace DeadLetterQueue

/-- What `add_failed_event` stores. -/
def failedEntry (id taskId : String) (event : ModelsEvent) (error : MeiliBridgeError)
    (retryCount createdAt retriedAt : Nat) : DeadLetterEntry where
  id := id
  taskId := taskId
  event := event
  error := error.display
  retryCount := retryCount
  createdAt := createdAt
  lastRetryAt := if retryCount > 0 then some retriedAt else none

/-- The retry information of an entry that is reprocessed. The count is a `u32`; a build with
overflow checks fails where it wraps. -/
def retried (now : Nat) (entry : DeadLetterEntry) : DeadLetterEntry :=
  { entry with retryCount := (entry.retryCount + 1) % 2 ^ 32, lastRetryAt := some now }

/-! ## A call of `reprocess_entries` -/

/-- What a call does next, with the entry it works on and those that come after. -/
inductive Phase where
  | update (entry : DeadLetterEntry) (rest : List DeadLetterEntry)
  | send (entry : DeadLetterEntry) (rest : List DeadLetterEntry)
  | remove (entry : DeadLetterEntry) (rest : List DeadLetterEntry)
  | returned (r : Result Nat)

/-- A call with the number of entries it has fetched. -/
structure Call where
  count : Nat
  phase : Phase

/-- The head of the loop. -/
def nextEntry (count : Nat) : List DeadLetterEntry → Call
  | [] => ⟨count, .returned (.ok count)⟩
  | entry :: rest => ⟨count, .update entry rest⟩

/-- A call that has fetched its entries. -/
def reprocessEntries (reprocessTx : Bool) : Result (List DeadLetterEntry) → Call
  | .error e => ⟨0, .returned (.error e)⟩
  | .ok entries =>
    let count := entries.length
    if count = 0 then ⟨count, .returned (.ok 0)⟩
    else if reprocessTx then nextEntry count entries
    else ⟨count, .returned (.error (.configuration "Reprocess channel not configured"))⟩

structure Queue where
  storage : Dict DeadLetterEntry
  /-- whether the reprocess channel is configured -/
  reprocessTx : Bool
  calls : List Call
  /-- what was sent to the reprocess channel -/
  sent : List DeadLetterEntry
  filed : List String
  cleared : List String
  /-- the entries that were sent and whose removal failed -/
  leftBehind : List String

inductive Label where
  | addFailedEvent (id taskId : String) (event : ModelsEvent) (error : MeiliBridgeError)
    (retryCount createdAt retriedAt : Nat) (reply : Reply)
  | clearTask (taskId : String) (reply : Reply)
  /-- a call starts and fetches its entries, or fails to -/
  | reprocess (taskId : String) (limit : Option UInt64) (fetch : Result Unit)
  /-- a call does its next step -/
  | advance (call : Nat) (now : Nat) (reply : Reply)

namespace Queue

variable (q : Queue)

def start (reprocessTx : Bool) : Queue := ⟨∅, reprocessTx, [], [], [], [], []⟩

/-- A new entry; the id is a fresh UUID. -/
def addFailedEvent (entry : DeadLetterEntry) (reply : Reply) : Option Queue :=
  if entry.id ∈ q.filed then none
  else if reply.takesEffect then
    some { q with storage := store q.storage entry, filed := q.filed ++ [entry.id] }
  else some q

def clearTask (taskId : String) (reply : Reply) : Queue :=
  if reply.takesEffect then
    { q with
      storage := retain q.storage taskId
      cleared := q.cleared ++ (ofTask q.storage taskId).map DeadLetterEntry.id }
  else q

def reprocess (taskId : String) (limit : Option UInt64) (fetch : Result Unit) : Queue :=
  { q with
    calls := q.calls ++
      [reprocessEntries q.reprocessTx (fetch.map fun _ => getByTask q.storage taskId limit)] }

/-- One step of the i-th call. -/
def advance (i : Nat) (c : Call) (now : Nat) (reply : Reply) : Option Queue :=
  match c.phase with
  | .update entry rest =>
    let entry := retried now entry
    let storage := if reply.takesEffect then store q.storage entry else q.storage
    match reply with
    | .succeeds => some { q with storage, calls := q.calls.set i ⟨c.count, .send entry rest⟩ }
    | .fails e _ => some { q with storage, calls := q.calls.set i ⟨c.count, .returned (.error e)⟩ }
  | .send entry rest =>
    match reply with
    | .succeeds =>
      some { q with
        sent := q.sent ++ [entry]
        calls := q.calls.set i ⟨c.count, .remove entry rest⟩ }
    | .fails _ _ =>
      let e := MeiliBridgeError.pipeline "Failed to reprocess entry: channel closed"
      some { q with calls := q.calls.set i ⟨c.count, .returned (.error e)⟩ }
  | .remove entry rest =>
    let q :=
      if reply.takesEffect then { q with storage := remove q.storage entry.id }
      else { q with leftBehind := q.leftBehind ++ [entry.id] }
    match reply with
    | .succeeds => some { q with calls := q.calls.set i (nextEntry c.count rest) }
    | .fails e _ => some { q with calls := q.calls.set i ⟨c.count, .returned (.error e)⟩ }
  | .returned _ => none

def step : Label → Option Queue
  | .addFailedEvent id taskId event error retryCount createdAt retriedAt reply =>
    q.addFailedEvent (failedEntry id taskId event error retryCount createdAt retriedAt) reply
  | .clearTask taskId reply => some (q.clearTask taskId reply)
  | .reprocess taskId limit fetch => some (q.reprocess taskId limit fetch)
  | .advance i now reply => q.calls[i]?.bind fun c => q.advance i c now reply

/-! ## What is handed over -/

def sentIds : List String := q.sent.map DeadLetterEntry.id

/-- No entry that was filed and not cleared is lost, and none is sent twice. -/
structure HandedOverOnce : Prop where
  kept : ∀ id ∈ q.filed, id ∉ q.cleared → id ∈ q.storage ∨ id ∈ q.sentIds
  once : q.sentIds.Nodup

end Queue

/-- The entry a call has sent and not removed yet. -/
def Phase.awaiting : Phase → List String
  | .remove entry _ => [entry.id]
  | _ => []

/-- The entries a call has not sent yet. -/
def Phase.toSend : Phase → List String
  | .update entry rest | .send entry rest => entry.id :: rest.map DeadLetterEntry.id
  | .remove _ rest => rest.map DeadLetterEntry.id
  | .returned _ => []

def Phase.inHand (p : Phase) : List String := p.awaiting ++ p.toSend

def Queue.awaiting (q : Queue) : List String := q.calls.flatMap fun c => c.phase.awaiting

def Queue.toSend (q : Queue) : List String := q.calls.flatMap fun c => c.phase.toSend

def Queue.inHand (q : Queue) : List String := q.calls.flatMap fun c => c.phase.inHand

/-- A call fetches no entry that another call has in hand, and none that was sent and left behind
when its removal failed. -/
def Fits (q : Queue) : Label → Prop
  | .reprocess taskId limit (.ok ()) => q.reprocessTx = true →
    ∀ entry ∈ getByTask q.storage taskId limit,
      entry.id ∉ q.inHand ∧ entry.id ∉ q.leftBehind
  | _ => True

/-! ## What a step of a call does -/

/-- From one state of the queue to the next, and from one state of a call to the next. -/
inductive Advance (q q' : Queue) (c c' : Call) : Prop
  /-- it updates its entry or fails to, or fails to send it -/
  | prepares (hawait : c.phase.awaiting = []) (hawait' : c'.phase.awaiting = [])
    (hsend : c'.phase.toSend.Sublist c.phase.toSend)
    (hstorage : q'.storage = q.storage ∨
      ∃ entry, entry.id ∈ c.phase.toSend ∧ q'.storage = store q.storage entry)
    (hsent : q'.sent = q.sent) (hleft : q'.leftBehind = q.leftBehind)
  | sends (entry : DeadLetterEntry) (hawait : c.phase.awaiting = [])
    (hawait' : c'.phase.awaiting = [entry.id])
    (hsend : c.phase.toSend = entry.id :: c'.phase.toSend)
    (hstorage : q'.storage = q.storage) (hsent : q'.sent = q.sent ++ [entry])
    (hleft : q'.leftBehind = q.leftBehind)
  /-- it removes its entry or fails to -/
  | removes (id : String) (hawait : c.phase.awaiting = [id]) (hawait' : c'.phase.awaiting = [])
    (hsend : c'.phase.toSend.Sublist c.phase.toSend)
    (hstorage : q'.storage = remove q.storage id ∧ q'.leftBehind = q.leftBehind ∨
      q'.storage = q.storage ∧ q'.leftBehind = q.leftBehind ++ [id])
    (hsent : q'.sent = q.sent)

@[simp] theorem awaiting_nextEntry (count : Nat) (rest : List DeadLetterEntry) :
    (nextEntry count rest).phase.awaiting = [] := by
  cases rest <;> rfl

@[simp] theorem toSend_nextEntry (count : Nat) (rest : List DeadLetterEntry) :
    (nextEntry count rest).phase.toSend = rest.map DeadLetterEntry.id := by
  cases rest <;> rfl

theorem advance_cases {q q' : Queue} {i now : Nat} {c : Call} {reply : Reply}
    (h : q.advance i c now reply = some q') :
    ∃ c', q'.calls = q.calls.set i c' ∧ q'.filed = q.filed ∧ q'.cleared = q.cleared ∧
      Advance q q' c c' := by
  obtain ⟨count, phase⟩ := c
  cases phase with
  | update entry rest =>
    have hmem : (retried now entry).id ∈ Phase.toSend (.update entry rest) := List.mem_cons_self
    cases reply with
    | succeeds =>
      cases h
      exact ⟨_, rfl, rfl, rfl, .prepares rfl rfl (List.Sublist.refl _)
        (.inr ⟨_, hmem, rfl⟩) rfl rfl⟩
    | fails e applied =>
      cases h
      -- a failure ends the call, with the entries that it still had to send
      refine ⟨_, rfl, rfl, rfl, .prepares rfl rfl (List.nil_sublist _) ?_ rfl rfl⟩
      cases applied
      · exact .inl rfl
      · exact .inr ⟨_, hmem, rfl⟩
  | send entry rest =>
    cases reply with
    | succeeds =>
      cases h
      exact ⟨_, rfl, rfl, rfl, .sends entry rfl rfl rfl rfl rfl rfl⟩
    | fails e applied =>
      cases h
      exact ⟨_, rfl, rfl, rfl, .prepares rfl rfl (List.nil_sublist _) (.inl rfl) rfl rfl⟩
  | remove entry rest =>
    cases reply with
    | succeeds =>
      cases h
      exact ⟨_, rfl, rfl, rfl, .removes entry.id rfl (awaiting_nextEntry _ _)
        (by rw [toSend_nextEntry]; exact List.Sublist.refl _) (.inl ⟨rfl, rfl⟩) rfl⟩
    | fails e applied =>
      cases applied
      · cases h
        exact ⟨_, rfl, rfl, rfl, .removes entry.id rfl rfl (List.nil_sublist _)
          (.inr ⟨rfl, rfl⟩) rfl⟩
      · cases h
        exact ⟨_, rfl, rfl, rfl, .removes entry.id rfl rfl (List.nil_sublist _)
          (.inl ⟨rfl, rfl⟩) rfl⟩
  | returned r => cases h

/-! ## The invariant -/

structure Invariant (q : Queue) : Prop where
  keyed : Keyed q.storage
  distinct : q.inHand.Nodup
  unsent : ∀ id ∈ q.toSend, id ∉ q.sentIds
  awaited : ∀ id ∈ q.awaiting, id ∈ q.sentIds
  left : ∀ id ∈ q.leftBehind, id ∈ q.sentIds
  /-- what is stored and was sent waits for its removal, or was left behind -/
  remains : ∀ id ∈ q.storage, id ∈ q.sentIds → id ∈ q.leftBehind ∨ id ∈ q.awaiting
  storedFiled : ∀ id ∈ q.storage, id ∈ q.filed
  toSendFiled : ∀ id ∈ q.toSend, id ∈ q.filed
  sentFiled : ∀ id ∈ q.sentIds, id ∈ q.filed
  handedOver : q.HandedOverOnce

theorem invariant_start (reprocessTx : Bool) : Invariant (.start reprocessTx) := by
  constructor
  case keyed => exact fun id entry h => absurd h (by simp [Queue.start])
  case storedFiled => exact fun id h => absurd h (AList.notMem_empty id)
  case remains => exact fun id h => absurd h (AList.notMem_empty id)
  case handedOver => exact ⟨fun id h => absurd h List.not_mem_nil, List.nodup_nil⟩
  all_goals simp [Queue.start, Queue.inHand, Queue.toSend, Queue.awaiting, Queue.sentIds]

variable {q q' : Queue}

/-- One call changes its state, and the others stay as they are. -/
structure Replaces (q q' : Queue) (c c' : Call) (others : List Call) : Prop where
  before : q.calls.Perm (c :: others)
  after : q'.calls.Perm (c' :: others)
  filed : q'.filed = q.filed
  cleared : q'.cleared = q.cleared

theorem perm_set {α : Type} {l : List α} {i : Nat} {c : α} (h : l[i]? = some c) :
    ∃ others, l.Perm (c :: others) ∧ ∀ c', (l.set i c').Perm (c' :: others) := by
  obtain ⟨hlt, rfl⟩ := List.getElem?_eq_some_iff.mp h
  refine ⟨l.take i ++ l.drop (i + 1), ?_, fun c' => ?_⟩
  · calc l = l.take i ++ l[i] :: l.drop (i + 1) := by
          rw [List.getElem_cons_drop, List.take_append_drop]
      List.Perm _ (l[i] :: (l.take i ++ l.drop (i + 1))) := List.perm_middle
  · rw [List.set_eq_take_append_cons_drop, if_pos hlt]
    exact List.perm_middle

section Replaces

variable {c c' : Call} {others : List Call} {id : String}

theorem Replaces.mem_toSend (h : Replaces q q' c c' others) :
    id ∈ q.toSend ↔ id ∈ c.phase.toSend ∨ id ∈ others.flatMap fun c => c.phase.toSend := by
  rw [Queue.toSend, (h.before.flatMap_right _).mem_iff, List.flatMap_cons, List.mem_append]

theorem Replaces.mem_toSend' (h : Replaces q q' c c' others) :
    id ∈ q'.toSend ↔ id ∈ c'.phase.toSend ∨ id ∈ others.flatMap fun c => c.phase.toSend := by
  rw [Queue.toSend, (h.after.flatMap_right _).mem_iff, List.flatMap_cons, List.mem_append]

theorem Replaces.mem_awaiting (h : Replaces q q' c c' others) :
    id ∈ q.awaiting ↔ id ∈ c.phase.awaiting ∨ id ∈ others.flatMap fun c => c.phase.awaiting := by
  rw [Queue.awaiting, (h.before.flatMap_right _).mem_iff, List.flatMap_cons, List.mem_append]

theorem Replaces.mem_awaiting' (h : Replaces q q' c c' others) :
    id ∈ q'.awaiting ↔ id ∈ c'.phase.awaiting ∨ id ∈ others.flatMap fun c => c.phase.awaiting := by
  rw [Queue.awaiting, (h.after.flatMap_right _).mem_iff, List.flatMap_cons, List.mem_append]

theorem Replaces.nodup (h : Replaces q q' c c' others) (hq : q.inHand.Nodup) :
    (c.phase.inHand ++ others.flatMap fun c => c.phase.inHand).Nodup :=
  (h.before.flatMap_right _).nodup_iff.mp hq

theorem Replaces.nodup' (h : Replaces q q' c c' others) (hq : q.inHand.Nodup)
    (hsub : c'.phase.inHand.Sublist c.phase.inHand) : q'.inHand.Nodup :=
  (h.after.flatMap_right _).nodup_iff.mpr
    ((h.nodup hq).sublist (hsub.append (List.Sublist.refl _)))

theorem toSend_subset_inHand (calls : List Call) (h : id ∈ calls.flatMap fun c => c.phase.toSend) :
    id ∈ calls.flatMap fun c => c.phase.inHand := by
  obtain ⟨c, hc, hid⟩ := List.mem_flatMap.mp h
  exact List.mem_flatMap.mpr ⟨c, hc, List.mem_append_right _ hid⟩

end Replaces

variable {c c' : Call} {others : List Call}

theorem Invariant.prepares (h : Invariant q) (hr : Replaces q q' c c' others)
    (hawait : c.phase.awaiting = []) (hawait' : c'.phase.awaiting = [])
    (hsend : c'.phase.toSend.Sublist c.phase.toSend)
    (hstorage : q'.storage = q.storage ∨
      ∃ entry, entry.id ∈ c.phase.toSend ∧ q'.storage = store q.storage entry)
    (hsent : q'.sent = q.sent) (hleft : q'.leftBehind = q.leftBehind) : Invariant q' := by
  have hids : q'.sentIds = q.sentIds := congrArg (List.map DeadLetterEntry.id) hsent
  have hsub : ∀ id ∈ q'.toSend, id ∈ q.toSend := by
    intro id hid
    rw [hr.mem_toSend'] at hid
    rw [hr.mem_toSend]
    exact hid.imp_left fun h => hsend.subset h
  have hwaits : ∀ id, id ∈ q'.awaiting ↔ id ∈ q.awaiting := by
    intro id
    rw [hr.mem_awaiting', hr.mem_awaiting, hawait, hawait']
  -- an entry that is stored was there, or has not been sent
  have hstored : ∀ id ∈ q'.storage, id ∈ q.storage ∨ id ∈ q.toSend := by
    intro id hid
    rcases hstorage with heq | ⟨entry, hentry, heq⟩
    · exact .inl (heq ▸ hid)
    · rw [heq, store, AList.mem_insert] at hid
      rcases hid with rfl | hid
      · exact .inr (hr.mem_toSend.mpr (.inl hentry))
      · exact .inl hid
  have hkept : ∀ id ∈ q.storage, id ∈ q'.storage := by
    intro id hid
    rcases hstorage with heq | ⟨entry, -, heq⟩
    · exact heq ▸ hid
    · rw [heq, store, AList.mem_insert]
      exact .inr hid
  constructor
  case keyed =>
    rcases hstorage with heq | ⟨entry, -, heq⟩
    · exact heq ▸ h.keyed
    · exact heq ▸ h.keyed.store entry
  case distinct =>
    refine hr.nodup' h.distinct ?_
    rw [Phase.inHand, Phase.inHand, hawait, hawait']
    exact hsend
  case unsent => exact fun id hid => hids ▸ h.unsent id (hsub id hid)
  case awaited => exact fun id hid => hids ▸ h.awaited id ((hwaits id).mp hid)
  case left => exact fun id hid => hids ▸ h.left id (hleft ▸ hid)
  case remains =>
    intro id hid hidsent
    rw [hids] at hidsent
    rw [hleft, hwaits]
    rcases hstored id hid with hid | hid
    · exact h.remains id hid hidsent
    · exact absurd hidsent (h.unsent id hid)
  case storedFiled =>
    intro id hid
    rw [hr.filed]
    exact (hstored id hid).elim (h.storedFiled id) (h.toSendFiled id)
  case toSendFiled => exact fun id hid => hr.filed ▸ h.toSendFiled id (hsub id hid)
  case sentFiled => exact fun id hid => hr.filed ▸ h.sentFiled id (hids ▸ hid)
  case handedOver =>
    refine ⟨fun id hid hcleared => ?_, hids ▸ h.handedOver.once⟩
    rw [hr.filed] at hid
    rw [hr.cleared] at hcleared
    rw [hids]
    exact (h.handedOver.kept id hid hcleared).imp_left (hkept id)

theorem Invariant.sends (h : Invariant q) (hr : Replaces q q' c c' others)
    (entry : DeadLetterEntry) (hawait : c.phase.awaiting = [])
    (hawait' : c'.phase.awaiting = [entry.id])
    (hsend : c.phase.toSend = entry.id :: c'.phase.toSend)
    (hstorage : q'.storage = q.storage) (hsent : q'.sent = q.sent ++ [entry])
    (hleft : q'.leftBehind = q.leftBehind) : Invariant q' := by
  have hids : q'.sentIds = q.sentIds ++ [entry.id] := by
    rw [Queue.sentIds, hsent, List.map_append]
    rfl
  have hmem : ∀ id, id ∈ q'.sentIds ↔ id ∈ q.sentIds ∨ id = entry.id := by
    intro id
    rw [hids, List.mem_append, List.mem_singleton]
  have hentry : entry.id ∈ q.toSend := by
    rw [hr.mem_toSend, hsend]
    exact .inl List.mem_cons_self
  have hsub : ∀ id ∈ q'.toSend, id ∈ q.toSend := by
    intro id hid
    rw [hr.mem_toSend'] at hid
    rw [hr.mem_toSend, hsend]
    exact hid.imp_left (List.mem_cons_of_mem _)
  -- no call has the entry in hand a second time
  have hdistinct := hr.nodup h.distinct
  rw [Phase.inHand, hawait, List.nil_append, hsend, List.cons_append, List.nodup_cons] at hdistinct
  have hother : ∀ id ∈ q'.toSend, id ≠ entry.id := by
    rintro id hid rfl
    rw [hr.mem_toSend'] at hid
    refine hdistinct.1 (List.mem_append.mpr (hid.imp_right ?_))
    exact toSend_subset_inHand others
  have hwaits : ∀ id, id ∈ q'.awaiting ↔ id ∈ q.awaiting ∨ id = entry.id := by
    intro id
    rw [hr.mem_awaiting', hr.mem_awaiting, hawait, hawait', List.mem_singleton]
    simp only [List.not_mem_nil, false_or]
    exact or_comm
  constructor
  case keyed => exact hstorage ▸ h.keyed
  case distinct =>
    refine hr.nodup' h.distinct ?_
    rw [Phase.inHand, Phase.inHand, hawait, hawait', hsend]
    exact List.Sublist.refl _
  case unsent =>
    intro id hid hidsent
    exact ((hmem id).mp hidsent).elim (h.unsent id (hsub id hid)) (hother id hid)
  case awaited =>
    intro id hid
    exact (hmem id).mpr (((hwaits id).mp hid).imp_left (h.awaited id))
  case left => exact fun id hid => (hmem id).mpr (.inl (h.left id (hleft ▸ hid)))
  case remains =>
    intro id hid hidsent
    rw [hleft, hwaits, ← or_assoc]
    exact ((hmem id).mp hidsent).imp_left (h.remains id (hstorage ▸ hid))
  case storedFiled => exact fun id hid => hr.filed ▸ h.storedFiled id (hstorage ▸ hid)
  case toSendFiled => exact fun id hid => hr.filed ▸ h.toSendFiled id (hsub id hid)
  case sentFiled =>
    intro id hid
    rw [hr.filed]
    rcases (hmem id).mp hid with hid | rfl
    · exact h.sentFiled id hid
    · exact h.toSendFiled _ hentry
  case handedOver =>
    refine ⟨fun id hid hcleared => ?_, ?_⟩
    · rw [hr.filed] at hid
      rw [hr.cleared] at hcleared
      rw [hstorage, hmem, ← or_assoc]
      exact .inl (h.handedOver.kept id hid hcleared)
    · rw [hids]
      exact h.handedOver.once.append (List.nodup_singleton _)
        (List.disjoint_singleton.mpr (h.unsent _ hentry))

theorem Invariant.removes (h : Invariant q) (hr : Replaces q q' c c' others) (id : String)
    (hawait : c.phase.awaiting = [id]) (hawait' : c'.phase.awaiting = [])
    (hsend : c'.phase.toSend.Sublist c.phase.toSend)
    (hstorage : q'.storage = remove q.storage id ∧ q'.leftBehind = q.leftBehind ∨
      q'.storage = q.storage ∧ q'.leftBehind = q.leftBehind ++ [id])
    (hsent : q'.sent = q.sent) : Invariant q' := by
  have hids : q'.sentIds = q.sentIds := congrArg (List.map DeadLetterEntry.id) hsent
  have hsub : ∀ other ∈ q'.toSend, other ∈ q.toSend := by
    intro other hother
    rw [hr.mem_toSend'] at hother
    rw [hr.mem_toSend]
    exact hother.imp_left fun h => hsend.subset h
  have hwaits : ∀ other, other ∈ q.awaiting ↔ other = id ∨ other ∈ q'.awaiting := by
    intro other
    rw [hr.mem_awaiting', hr.mem_awaiting, hawait, hawait', List.mem_singleton]
    simp only [List.not_mem_nil, false_or]
  -- an entry is removed after it has been sent
  have hidsent : id ∈ q.sentIds := h.awaited id ((hwaits id).mpr (.inl rfl))
  -- the removal may fail, and then the entry stays behind
  have hstored : ∀ other ∈ q'.storage, other ∈ q.storage := by
    intro other hother
    rcases hstorage with ⟨heq, -⟩ | ⟨heq, -⟩
    · rw [heq, remove, AList.mem_erase] at hother
      exact hother.2
    · exact heq ▸ hother
  have hkept : ∀ other ∈ q.storage, other ≠ id → other ∈ q'.storage := by
    intro other hother hne
    rcases hstorage with ⟨heq, -⟩ | ⟨heq, -⟩
    · rw [heq, remove, AList.mem_erase]
      exact ⟨hne, hother⟩
    · exact heq ▸ hother
  constructor
  case keyed =>
    rcases hstorage with ⟨heq, -⟩ | ⟨heq, -⟩
    · exact heq ▸ fun other e hlookup => h.keyed other e (remove_sub hlookup)
    · exact heq ▸ h.keyed
  case distinct =>
    refine hr.nodup' h.distinct ?_
    rw [Phase.inHand, Phase.inHand, hawait, hawait']
    exact hsend.cons _
  case unsent => exact fun other hother => hids ▸ h.unsent other (hsub other hother)
  case awaited =>
    exact fun other hother => hids ▸ h.awaited other ((hwaits other).mpr (.inr hother))
  case left =>
    intro other hother
    rw [hids]
    rcases hstorage with ⟨-, heq⟩ | ⟨-, heq⟩
    · exact h.left other (heq ▸ hother)
    · rw [heq, List.mem_append, List.mem_singleton] at hother
      exact hother.elim (h.left other) fun heq => heq ▸ hidsent
  case remains =>
    intro other hother hothersent
    rw [hids] at hothersent
    have hold := h.remains other (hstored other hother) hothersent
    rw [hwaits] at hold
    rcases hstorage with ⟨heq, hleft⟩ | ⟨-, hleft⟩
    · rw [heq, remove, AList.mem_erase] at hother
      rw [hleft]
      exact hold.imp_right fun h => h.resolve_left hother.1
    · rw [hleft, List.mem_append, List.mem_singleton, or_assoc]
      exact hold
  case storedFiled => exact fun other hother =>
    hr.filed ▸ h.storedFiled other (hstored other hother)
  case toSendFiled => exact fun other hother => hr.filed ▸ h.toSendFiled other (hsub other hother)
  case sentFiled => exact fun other hother => hr.filed ▸ h.sentFiled other (hids ▸ hother)
  case handedOver =>
    refine ⟨fun other hother hcleared => ?_, hids ▸ h.handedOver.once⟩
    rw [hr.filed] at hother
    rw [hr.cleared] at hcleared
    rw [hids]
    by_cases hne : other = id
    · exact .inr (hne ▸ hidsent)
    · exact (h.handedOver.kept other hother hcleared).imp_left fun h => hkept other h hne

theorem Invariant.advance (h : Invariant q) {i now : Nat} {reply : Reply}
    (hc : q.calls[i]? = some c) (hstep : q.advance i c now reply = some q') : Invariant q' := by
  obtain ⟨c', hcalls, hfiled, hcleared, hadvance⟩ := advance_cases hstep
  obtain ⟨others, hbefore, hafter⟩ := perm_set hc
  have hr : Replaces q q' c c' others := ⟨hbefore, hcalls ▸ hafter c', hfiled, hcleared⟩
  cases hadvance with
  | prepares hawait hawait' hsend hstorage hsent hleft =>
    exact h.prepares hr hawait hawait' hsend hstorage hsent hleft
  | sends entry hawait hawait' hsend hstorage hsent hleft =>
    exact h.sends hr entry hawait hawait' hsend hstorage hsent hleft
  | removes id hawait hawait' hsend hstorage hsent =>
    exact h.removes hr id hawait hawait' hsend hstorage hsent

theorem Invariant.addFailedEvent (h : Invariant q) {entry : DeadLetterEntry} {reply : Reply}
    (hstep : q.addFailedEvent entry reply = some q') : Invariant q' := by
  unfold Queue.addFailedEvent at hstep
  split at hstep
  · cases hstep
  next hfresh =>
  split at hstep
  · cases hstep
    -- an id that was never filed was never sent
    have hunsent : entry.id ∉ q.sentIds := fun hid => hfresh (h.sentFiled _ hid)
    have hstored : ∀ id, id ∈ store q.storage entry ↔ id = entry.id ∨ id ∈ q.storage :=
      fun id => AList.mem_insert _
    constructor
    case keyed => exact h.keyed.store entry
    case distinct => exact h.distinct
    case unsent => exact h.unsent
    case awaited => exact h.awaited
    case left => exact h.left
    case remains =>
      intro id hid hidsent
      rcases (hstored id).mp hid with rfl | hid
      · exact absurd hidsent hunsent
      · exact h.remains id hid hidsent
    case storedFiled =>
      intro id hid
      rw [List.mem_append, List.mem_singleton]
      exact ((hstored id).mp hid).symm.imp_left (h.storedFiled id)
    case toSendFiled => exact fun id hid => List.mem_append_left _ (h.toSendFiled id hid)
    case sentFiled => exact fun id hid => List.mem_append_left _ (h.sentFiled id hid)
    case handedOver =>
      refine ⟨fun id hid hcleared => ?_, h.handedOver.once⟩
      rcases List.mem_append.mp hid with hid | hid
      · exact (h.handedOver.kept id hid hcleared).imp_left fun h => (hstored id).mpr (.inr h)
      · exact .inl ((hstored id).mpr (.inl (List.mem_singleton.mp hid)))
  · cases hstep
    exact h

theorem Invariant.clearTask (h : Invariant q) (taskId : String) (reply : Reply) :
    Invariant (q.clearTask taskId reply) := by
  unfold Queue.clearTask
  split
  · have hsub : ∀ id ∈ retain q.storage taskId, id ∈ q.storage := by
      intro id hid
      obtain ⟨entry, hentry⟩ := Option.isSome_iff_exists.mp (AList.lookup_isSome.mpr hid)
      exact AList.lookup_isSome.mp (by rw [retain_sub hentry]; rfl)
    refine {
      keyed := fun id e hlookup => h.keyed id e (retain_sub hlookup)
      distinct := h.distinct
      unsent := h.unsent
      awaited := h.awaited
      left := h.left
      remains := fun id hid => h.remains id (hsub id hid)
      storedFiled := fun id hid => h.storedFiled id (hsub id hid)
      toSendFiled := h.toSendFiled
      sentFiled := h.sentFiled
      handedOver := ⟨fun id hid hcleared => ?_, h.handedOver.once⟩ }
    rw [List.mem_append, not_or] at hcleared
    refine (h.handedOver.kept id hid hcleared.1).imp_left fun hmem => ?_
    -- an entry of another task stays
    obtain ⟨entry, hentry⟩ := Option.isSome_iff_exists.mp (AList.lookup_isSome.mpr hmem)
    have hid := h.keyed id entry hentry
    subst hid
    have htask : entry.taskId ≠ taskId := by
      intro htask
      refine hcleared.2 (List.mem_map.mpr ⟨entry, mem_ofTask.mpr ⟨?_, htask⟩, rfl⟩)
      exact h.keyed.mem_values.mpr hentry
    refine AList.lookup_isSome.mp ?_
    rw [lookup_retain, hentry, Option.filter_some_pos (by simpa using htask)]
    rfl
  · exact h

theorem mem_getByTask {m : Dict DeadLetterEntry} {taskId : String} {limit : Option UInt64}
    {entry : DeadLetterEntry} (h : entry ∈ getByTask m taskId limit) : entry ∈ values m := by
  unfold getByTask at h
  split at h
  · exact (mem_ofTask.mp (List.mem_sortedBy.mp (List.mem_of_mem_take h))).1
  · exact (mem_ofTask.mp (List.mem_sortedBy.mp h)).1

theorem nodup_getByTask {m : Dict DeadLetterEntry} (h : Keyed m) (taskId : String)
    (limit : Option UInt64) : ((getByTask m taskId limit).map DeadLetterEntry.id).Nodup := by
  have htask : (ofTask m taskId).DistinctBy DeadLetterEntry.id :=
    h.distinct_ids.sublist (List.filter_sublist.map _)
  have hsorted : (((ofTask m taskId).sortedBy DeadLetterEntry.createdAt).map
      DeadLetterEntry.id).Nodup := (List.perm_sortedBy.map _).nodup_iff.mpr htask
  unfold getByTask
  split
  · exact hsorted.sublist ((List.take_sublist _ _).map _)
  · exact hsorted

/-- A call that starts has sent nothing, and is going to send what it has fetched. -/
theorem reprocessEntries_phase (reprocessTx : Bool) (fetched : Result (List DeadLetterEntry)) :
    (reprocessEntries reprocessTx fetched).phase.awaiting = [] ∧
      ((reprocessEntries reprocessTx fetched).phase.toSend = [] ∨
        reprocessTx = true ∧ ∃ entries, fetched = .ok entries ∧
          (reprocessEntries reprocessTx fetched).phase.toSend =
            entries.map DeadLetterEntry.id) := by
  cases fetched with
  | error e => exact ⟨rfl, .inl rfl⟩
  | ok entries =>
    simp only [reprocessEntries]
    split
    · exact ⟨rfl, .inl rfl⟩
    · split
      · next htx =>
        exact ⟨awaiting_nextEntry _ _, .inr ⟨htx, entries, rfl, toSend_nextEntry _ _⟩⟩
      · exact ⟨rfl, .inl rfl⟩

theorem Invariant.reprocess (h : Invariant q) {taskId : String} {limit : Option UInt64}
    {fetch : Result Unit} (hfits : Fits q (.reprocess taskId limit fetch)) :
    Invariant (q.reprocess taskId limit fetch) := by
  obtain ⟨hawait, hsend⟩ := reprocessEntries_phase q.reprocessTx
    (fetch.map fun _ => getByTask q.storage taskId limit)
  unfold Queue.reprocess
  set c := reprocessEntries q.reprocessTx (fetch.map fun _ => getByTask q.storage taskId limit)
  -- what it is going to send is stored, not sent and in no other hand
  have hnew : c.phase.toSend.Nodup ∧
      ∀ id ∈ c.phase.toSend, id ∈ q.storage ∧ id ∉ q.inHand ∧ id ∉ q.leftBehind := by
    rcases hsend with hnone | ⟨htx, entries, hfetch, hsend⟩
    · rw [hnone]
      exact ⟨List.nodup_nil, fun id hid => absurd hid List.not_mem_nil⟩
    · cases fetch with
      | error e => cases hfetch
      | ok =>
        cases hfetch
        rw [hsend]
        refine ⟨nodup_getByTask h.keyed taskId limit, fun id hid => ?_⟩
        obtain ⟨entry, hentry, rfl⟩ := List.mem_map.mp hid
        refine ⟨AList.lookup_isSome.mp ?_, hfits htx entry hentry⟩
        rw [h.keyed.mem_values.mp (mem_getByTask hentry)]
        rfl
  have hunsent : ∀ id ∈ c.phase.toSend, id ∉ q.sentIds := by
    intro id hid hidsent
    obtain ⟨hstored, hhand, hleft⟩ := hnew.2 id hid
    refine (h.remains id hstored hidsent).elim hleft fun hawaits => hhand ?_
    obtain ⟨other, hother, hmem⟩ := List.mem_flatMap.mp hawaits
    exact List.mem_flatMap.mpr ⟨other, hother, List.mem_append_left _ hmem⟩
  have hsends : ∀ id, id ∈ (Queue.toSend { q with calls := q.calls ++ [c] }) ↔
      id ∈ q.toSend ∨ id ∈ c.phase.toSend := by
    intro id
    rw [Queue.toSend, List.flatMap_append, List.mem_append, List.flatMap_singleton]
    rfl
  have hwaits : Queue.awaiting { q with calls := q.calls ++ [c] } = q.awaiting := by
    rw [Queue.awaiting, List.flatMap_append, List.flatMap_singleton, hawait, List.append_nil]
    rfl
  constructor
  case keyed => exact h.keyed
  case distinct =>
    rw [Queue.inHand, List.flatMap_append, List.flatMap_singleton, Phase.inHand, hawait]
    exact h.distinct.append hnew.1 fun id hid hid' => (hnew.2 id hid').2.1 hid
  case unsent => exact fun id hid => ((hsends id).mp hid).elim (h.unsent id) (hunsent id)
  case awaited => exact fun id hid => h.awaited id (hwaits ▸ hid)
  case left => exact h.left
  case remains => exact fun id hid hidsent => hwaits ▸ h.remains id hid hidsent
  case storedFiled => exact h.storedFiled
  case toSendFiled =>
    intro id hid
    exact ((hsends id).mp hid).elim (h.toSendFiled id) fun hid => h.storedFiled id (hnew.2 id hid).1
  case sentFiled => exact h.sentFiled
  case handedOver => exact ⟨h.handedOver.kept, h.handedOver.once⟩

theorem Invariant.step (h : Invariant q) {l : Label} (hfits : Fits q l)
    (hstep : q.step l = some q') : Invariant q' := by
  cases l with
  | addFailedEvent id taskId event error retryCount createdAt retriedAt reply =>
    exact h.addFailedEvent hstep
  | clearTask taskId reply =>
    cases hstep
    exact h.clearTask taskId reply
  | reprocess taskId limit fetch =>
    cases hstep
    exact h.reprocess hfits
  | advance i now reply =>
    obtain ⟨c, hc, hadvance⟩ := Option.bind_eq_some_iff.mp hstep
    exact h.advance hc hadvance

/-! ## What a fetch that does not fit leads to -/

/-- A step of a call that has fetched its entries. -/
def Advances (q q' : Queue) : Prop := ∃ i now reply, q.step (.advance i now reply) = some q'

/-- The i-th call can go on to send the entry, without the others. -/
def Leads (i : Nat) (id : String) (q : Queue) : Prop :=
  ∃ q', Relation.ReflTransGen Advances q q' ∧
    (∃ more, q'.sentIds = q.sentIds ++ more ∧ id ∈ more) ∧
    ∀ j, j ≠ i → q'.calls[j]? = q.calls[j]?

variable {i count : Nat} {id : String}

theorem Leads.of_step (hstep : Advances q q') {more : List String}
    (hsent : q'.sentIds = q.sentIds ++ more) (hcalls : ∀ j, j ≠ i → q'.calls[j]? = q.calls[j]?)
    (h : Leads i id q') : Leads i id q := by
  obtain ⟨q'', hrun, ⟨more', hsent', hid⟩, hcalls'⟩ := h
  refine ⟨q'', .head hstep hrun, ⟨more ++ more', ?_, List.mem_append_right _ hid⟩, ?_⟩
  · rw [hsent', hsent, List.append_assoc]
  · exact fun j hj => (hcalls' j hj).trans (hcalls j hj)

theorem getElem?_set_self {l : List Call} {c₀ c : Call} (h : l[i]? = some c₀) :
    (l.set i c)[i]? = some c := by
  obtain ⟨hlt, -⟩ := List.getElem?_eq_some_iff.mp h
  rw [List.getElem?_set_self hlt]

theorem getElem?_set_others {l : List Call} {c : Call} :
    ∀ j, j ≠ i → (l.set i c)[j]? = l[j]? :=
  fun _ hj => List.getElem?_set_ne hj.symm

theorem leads_send {entry : DeadLetterEntry} {rest : List DeadLetterEntry}
    (hrest : ∀ q : Queue, q.calls[i]? = some ⟨count, .remove entry rest⟩ →
      id ∈ rest.map DeadLetterEntry.id → Leads i id q)
    (h : q.calls[i]? = some ⟨count, .send entry rest⟩)
    (hid : id ∈ (Phase.send entry rest).toSend) : Leads i id q := by
  let sent : Queue :=
    { q with sent := q.sent ++ [entry], calls := q.calls.set i ⟨count, .remove entry rest⟩ }
  have hstep : Advances q sent := by
    refine ⟨i, 0, .succeeds, ?_⟩
    rw [Queue.step, h]
    rfl
  have hsent : sent.sentIds = q.sentIds ++ [entry.id] := List.map_append
  rcases List.mem_cons.mp hid with rfl | hid
  · exact ⟨sent, .single hstep, ⟨_, hsent, List.mem_singleton_self _⟩, getElem?_set_others⟩
  · exact .of_step hstep hsent getElem?_set_others (hrest sent (getElem?_set_self h) hid)

theorem leads_update {entry : DeadLetterEntry} {rest : List DeadLetterEntry}
    (hrest : ∀ (entry : DeadLetterEntry) (q : Queue),
      q.calls[i]? = some ⟨count, .remove entry rest⟩ →
        id ∈ rest.map DeadLetterEntry.id → Leads i id q)
    (h : q.calls[i]? = some ⟨count, .update entry rest⟩)
    (hid : id ∈ (Phase.update entry rest).toSend) : Leads i id q := by
  let updated : Queue :=
    { q with
      storage := store q.storage (retried 0 entry)
      calls := q.calls.set i ⟨count, .send (retried 0 entry) rest⟩ }
  have hstep : Advances q updated := by
    refine ⟨i, 0, .succeeds, ?_⟩
    rw [Queue.step, h]
    rfl
  exact .of_step hstep (List.append_nil _).symm getElem?_set_others
    (leads_send (hrest _) (getElem?_set_self h) hid)

theorem leads_remove {rest : List DeadLetterEntry} (hid : id ∈ rest.map DeadLetterEntry.id) :
    ∀ (entry : DeadLetterEntry) (q : Queue),
      q.calls[i]? = some ⟨count, .remove entry rest⟩ → Leads i id q := by
  induction rest with
  | nil => cases hid
  | cons next rest ih =>
    intro entry q h
    let removed : Queue :=
      { q with
        storage := remove q.storage entry.id
        calls := q.calls.set i (nextEntry count (next :: rest)) }
    have hstep : Advances q removed := by
      refine ⟨i, 0, .succeeds, ?_⟩
      rw [Queue.step, h]
      rfl
    exact .of_step hstep (List.append_nil _).symm getElem?_set_others
      (leads_update (fun entry q h hid => ih hid entry q h) (getElem?_set_self h) hid)

/-- A call can go on to send each entry that it has not sent. -/
theorem leads_of_toSend {c : Call} (h : q.calls[i]? = some c) (hid : id ∈ c.phase.toSend) :
    Leads i id q := by
  obtain ⟨count, phase⟩ := c
  cases phase with
  | update entry rest => exact leads_update (fun e q h hid => leads_remove hid e q h) h hid
  | send entry rest => exact leads_send (fun q h hid => leads_remove hid entry q h) h hid
  | remove entry rest => exact leads_remove hid entry q h
  | returned r => cases hid

theorem not_once_of_leads (hsent : id ∈ q.sentIds) (h : Leads i id q) :
    ∃ q', Relation.ReflTransGen Advances q q' ∧ ¬ q'.HandedOverOnce := by
  obtain ⟨q', hrun, ⟨more, hmore, hid⟩, -⟩ := h
  refine ⟨q', hrun, fun hover => ?_⟩
  have honce := hover.once
  rw [hmore] at honce
  exact List.disjoint_of_nodup_append honce hsent hid

/-- After a fetch that does not fit, the calls that run can send an entry twice. -/
theorem not_once_of_not_fits (h : Invariant q) {taskId : String} {limit : Option UInt64}
    (hfits : ¬ Fits q (.reprocess taskId limit (.ok ()))) :
    ∃ q', Relation.ReflTransGen Advances (q.reprocess taskId limit (.ok ())) q' ∧
      ¬ q'.HandedOverOnce := by
  simp only [Fits, not_forall] at hfits
  obtain ⟨htx, entry, hentry, hfits⟩ := hfits
  set c := reprocessEntries q.reprocessTx (.ok (getByTask q.storage taskId limit)) with hc
  have hsend : entry.id ∈ c.phase.toSend := by
    have hne : (getByTask q.storage taskId limit).length ≠ 0 :=
      fun hlen => absurd hentry (by simp [List.length_eq_zero_iff.mp hlen])
    rw [hc, reprocessEntries, if_neg hne, if_pos htx, toSend_nextEntry]
    exact List.mem_map_of_mem hentry
  have hnew : (q.reprocess taskId limit (.ok ())).calls[q.calls.length]? = some c := by
    rw [Queue.reprocess, List.getElem?_concat_length]
    rfl
  have hold : ∀ j c', q.calls[j]? = some c' →
      (q.reprocess taskId limit (.ok ())).calls[j]? = some c' ∧ q.calls.length ≠ j := by
    intro j c' hj
    obtain ⟨hlt, -⟩ := List.getElem?_eq_some_iff.mp hj
    rw [Queue.reprocess, List.getElem?_append_left hlt]
    exact ⟨hj, hlt.ne'⟩
  rw [not_and_or, not_not, not_not] at hfits
  by_cases hsent : entry.id ∈ q.sentIds
  · exact not_once_of_leads hsent (leads_of_toSend hnew hsend)
  · -- another call has the entry in hand, and sends it first
    have hhand := hfits.resolve_right fun hleft => hsent (h.left _ hleft)
    obtain ⟨other, hother, hmem⟩ := List.mem_flatMap.mp hhand
    have htosend : entry.id ∈ other.phase.toSend := by
      refine (List.mem_append.mp hmem).resolve_left fun hawait => hsent (h.awaited _ ?_)
      exact List.mem_flatMap.mpr ⟨other, hother, hawait⟩
    obtain ⟨j, hj⟩ := List.mem_iff_getElem?.mp hother
    obtain ⟨hj', hne⟩ := hold j other hj
    obtain ⟨q₁, hrun, ⟨more, hmore, hid⟩, hcalls⟩ := leads_of_toSend hj' htosend
    have hsent₁ : entry.id ∈ q₁.sentIds := hmore ▸ List.mem_append_right _ hid
    have hnew₁ := (hcalls _ hne).trans hnew
    obtain ⟨q₂, hrun₂, hnot⟩ := not_once_of_leads hsent₁ (leads_of_toSend hnew₁ hsend)
    exact ⟨q₂, hrun.trans hrun₂, hnot⟩

/-! ## Every run -/

/-- The runs in which every fetch fits. -/
def fittingRuns (reprocessTx : Bool) : Trans.Machine Queue Label :=
  (ofFn (.start reprocessTx) Queue.step).restrict Fits

theorem invariant_of_reachable {reprocessTx : Bool} (h : (fittingRuns reprocessTx).Reachable q) :
    Invariant q := by
  refine h.invariant (fun s hs => ?_) fun s l s' hs hstep => hs.step hstep.1 hstep.2
  exact hs ▸ invariant_start reprocessTx

theorem reachable_of_advances {reprocessTx : Bool} (h : (fittingRuns reprocessTx).Reachable q)
    (hrun : Relation.ReflTransGen Advances q q') : (fittingRuns reprocessTx).Reachable q' := by
  induction hrun with
  | refl => exact h
  | tail _ hstep ih =>
    obtain ⟨i, now, reply, hstep⟩ := hstep
    exact ih.restrict_step (.advance i now reply) trivial hstep

/-- **Entries are handed over exactly once** in every run in which every fetch fits; and a next step
fits exactly when the calls that run after it, by themselves, send nothing twice. -/
theorem handed_over_once_iff (reprocessTx : Bool) (q : Queue)
    (h : (fittingRuns reprocessTx).Reachable q) :
    q.HandedOverOnce ∧ ∀ l q', q.step l = some q' →
      (Fits q l ↔ ∀ q'', Relation.ReflTransGen Advances q' q'' → q''.HandedOverOnce) := by
  have hinv := invariant_of_reachable h
  refine ⟨hinv.handedOver, fun l q' hstep => ⟨fun hfits q'' hrun => ?_, fun hall => ?_⟩⟩
  · exact (invariant_of_reachable
      (reachable_of_advances (h.restrict_step l hfits hstep) hrun)).handedOver
  · by_contra hfits
    cases l with
    | reprocess taskId limit fetch =>
      cases fetch with
      | error e => exact hfits trivial
      | ok =>
        cases hstep
        obtain ⟨q'', hrun, hnot⟩ := not_once_of_not_fits hinv hfits
        exact hnot (hall q'' hrun)
    | addFailedEvent id taskId event error retryCount createdAt retriedAt reply =>
        exact hfits trivial
    | clearTask taskId reply => exact hfits trivial
    | advance i now reply => exact hfits trivial

/-! ## Two calls at once -/

def deletedBook : ModelsEvent :=
  ⟨"e1", .delete, ⟨"", "public", "books"⟩, ⟨.null, none, none⟩, ⟨none, "", []⟩, 0⟩

def addBook : Label :=
  .addFailedEvent "d1" "books" deletedBook (.pipeline "timeout") 0 0 0 .succeeds

def reprocessBooks : Label := .reprocess "books" none (.ok ())

/-- Both calls fetch the entry before one of them has removed it. -/
def twoCalls : List Label :=
  [addBook, reprocessBooks, reprocessBooks, .advance 0 0 .succeeds, .advance 0 0 .succeeds,
    .advance 1 0 .succeeds, .advance 1 0 .succeeds]

theorem sent_twice : (runFn Queue.step (.start true) twoCalls).map Queue.sentIds =
    some ["d1", "d1"] := rfl

/-- Not every run hands each entry over once. -/
theorem not_always_once :
    ¬ ∀ (reprocessTx : Bool) (q : Queue), (ofFn (.start reprocessTx) Queue.step).Reachable q →
      q.HandedOverOnce := by
  intro hall
  obtain ⟨q, hrun, hsent⟩ := Option.map_eq_some_iff.mp sent_twice
  have honce := (hall true q (reachable_of_runFn (.init rfl) hrun)).once
  rw [hsent] at honce
  exact absurd honce (by decide)

/-! ## One call after another -/

instance (q : Queue) : (l : Label) → Decidable (Fits q l)
  | .reprocess taskId limit (.ok ()) => inferInstanceAs (Decidable (q.reprocessTx = true →
      ∀ entry ∈ getByTask q.storage taskId limit,
        entry.id ∉ q.inHand ∧ entry.id ∉ q.leftBehind))
  | .reprocess _ _ (.error _) => isTrue trivial
  | .addFailedEvent .. => isTrue trivial
  | .clearTask _ _ => isTrue trivial
  | .advance _ _ _ => isTrue trivial

/-- A call updates, sends and removes the one entry that it has fetched. -/
def oneEntry (call : Nat) : List Label :=
  [.advance call 1 .succeeds, .advance call 1 .succeeds, .advance call 1 .succeeds]

/-- Two entries are filed, and each of two calls takes one; a third one finds nothing left. -/
def oneByOne : List Label :=
  [addBook,
    .addFailedEvent "d2" "books" deletedBook (.pipeline "timeout") 0 1 1 .succeeds,
    .reprocess "books" (some 1) (.ok ())] ++
    oneEntry 0 ++ [.reprocess "books" (some 1) (.ok ())] ++ oneEntry 1 ++ [reprocessBooks]

theorem oneByOne_runs :
    (runFn (checked Queue.step Fits) (.start true) oneByOne).map
      (fun q => (q.sentIds, q.storage.keys)) = some (["d1", "d2"], []) := rfl

theorem handed_over_once_books :
    ∃ q : Queue, q.sentIds = ["d1", "d2"] ∧ q.storage.keys = [] ∧ q.HandedOverOnce := by
  obtain ⟨q, hrun, hends⟩ := Option.map_eq_some_iff.mp oneByOne_runs
  obtain ⟨hsent, hstorage⟩ := Prod.mk.inj hends
  exact ⟨q, hsent, hstorage, (handed_over_once_iff true q (reachable_of_checked hrun)).1⟩

end DeadLetterQueue

end MeiliBridge
