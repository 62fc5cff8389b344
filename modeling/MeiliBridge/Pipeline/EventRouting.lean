import MeiliBridge.Pipeline.CdcCoordinator

/-!
# Where `distribute_event` puts an event

An event of the table `t` in the schema `s` has two names, `s.t` and `t`, and goes to the channels
that are registered under them. One check of the paused tables stands in front of both sends and
looks for both names, so a table that is paused under either name gets nothing. The second name is
read off the first as what follows its last dot, which is `t` if `t` has no dot itself.
-/

set_option autoImplicit false

namespace MeiliBridge

open Trans

/-- The names of an event's table: with the schema and without, if it has a schema. -/
def CdcEvent.names (e : CdcEvent) : List String :=
  if e.schema = "" then [e.table] else [e.schema ++ "." ++ e.table, e.table]

namespace CdcCoordinator

theorem tableOnly_append {schema table : String} (h : '.' ∉ table.toList) :
    tableOnly (schema ++ "." ++ table) = some table := by
  have happend : (schema ++ "." ++ table).toList = schema.toList ++ '.' :: table.toList := by
    simp only [String.toList_append, List.append_assoc]
    rfl
  have hsplit : Text.split '.' (schema ++ "." ++ table) =
      (schema.toList.splitOn '.').map String.ofList ++ [table] := by
    rw [Text.split, happend, List.splitOn_append_cons_self, List.splitOn_eq_singleton h,
      List.map_append]
    simp
  rw [tableOnly, happend, if_pos (by simp), hsplit, List.getLast?_concat]
  rfl

/-- A table without a dot gets its events under its own names. -/
theorem targets_eq_names {e : CdcEvent} (h : '.' ∉ e.table.toList) :
    (Event.cdc e).targets = e.names := by
  show e.tableName :: (tableOnly e.tableName).toList = e.names
  rw [CdcEvent.tableName, CdcEvent.names]
  split
  · rw [tableOnly, if_neg h]
    rfl
  · rw [tableOnly_append h]
    rfl

/-! ## A call -/

/-- The steps of the loop in `distribute_event`. -/
def InCall : Label → Prop
  | .checkTable | .trySend | .pauseFull | .blockedSend | .finish => True
  | _ => False

/-- A call of `distribute_event` that begins in `s`, while nothing else happens. -/
def call (s : State) : Machine State Label :=
  Machine.restrict ⟨(· = s), Step⟩ fun _ l => InCall l

/-- The call can return in `s'`. -/
def Returns (s s' : State) : Prop := (call s).Reachable s' ∧ s'.loop = .waiting

/-- The channels are open and have room. -/
def Roomy (s : State) : Prop :=
  ∀ name ch, s.taskChannels name = some ch → ch.isOpen = true ∧ ch.queue.length < channelCapacity

/-- Each channel of these names has got the message, once, and no other channel has got anything. -/
def Routed (s : State) (m : Message) (names : List String) (s' : State) : Prop :=
  ∀ name, s'.taskChannels name = (s.taskChannels name).map fun ch =>
    if name ∈ names then { ch with queue := ch.queue ++ [m] } else ch

/-- How far the call is: not begun, or its table is paused, or it has tried the channels `sent`. -/
inductive Progress (s : State) (m : Message) : State → Prop
  | begins : Progress s m s
  | paused {t : State} (hpaused : s.tablePaused m.event = true) (hloop : t.loop = .waiting)
      (hrouted : Routed s m [] t) : Progress s m t
  | sending {t : State} {sent rest : List String} (hpaused : s.tablePaused m.event = false)
      (htargets : m.event.targets = sent ++ rest) (hloop : t.loop = .sending m rest)
      (hrouted : Routed s m sent t) : Progress s m t
  | sent {t : State} (hpaused : s.tablePaused m.event = false) (hloop : t.loop = .waiting)
      (hrouted : Routed s m m.event.targets t) : Progress s m t

variable {s s' t : State} {m : Message} {name : String} {sent rest : List String} {ch : TaskChannel}

theorem Routed.refl (s : State) (m : Message) : Routed s m [] s := by
  intro name
  simp

/-- A name without a channel is passed over. -/
theorem Routed.skip (h : Routed s m sent t) (hno : t.taskChannels name = none) :
    Routed s m (sent ++ [name]) t := by
  intro other
  rw [h other]
  by_cases hother : other = name
  · subst hother
    have hnone : s.taskChannels other = none := by simpa [h other] using hno
    simp [hnone]
  · simp [hother]

/-- A channel whose name has not come yet is as it was. -/
theorem Routed.untouched (h : Routed s m sent t) (hnew : name ∉ sent) :
    t.taskChannels name = s.taskChannels name := by
  rw [h name]
  simp [hnew]

theorem Routed.push (h : Routed s m sent t) (hnew : name ∉ sent)
    (hch : t.taskChannels name = some ch) :
    Routed s m (sent ++ [name]) (t.push name ch m) := by
  intro other
  show Function.update t.taskChannels name _ other = _
  by_cases hother : other = name
  · subst hother
    rw [Function.update_self, ← h.untouched hnew, hch]
    simp
  · rw [Function.update_of_ne hother, h other]
    simp [hother]

/-- The next name of the call is not among those it has tried. -/
theorem not_mem_sent (h : m.event.targets = sent ++ name :: rest) : name ∉ sent := by
  have hnodup := Event.targets_nodup m.event
  rw [h] at hnodup
  intro hmem
  exact List.disjoint_of_nodup_append hnodup hmem List.mem_cons_self

theorem Progress.step {l : Label} (hloop : s.loop = .distributing m) (hroom : Roomy s)
    (h : Progress s m t) (hl : InCall l) (hs : Step t l s') : Progress s m s' := by
  cases h with
  | begins =>
    cases hs with
    | @checkTable m' hloop' =>
      obtain rfl := Loop.distributing.inj (hloop.symm.trans hloop')
      cases hpaused : s.tablePaused m.event with
      | true => exact .paused hpaused rfl (.refl s m)
      | false => exact .sending hpaused rfl rfl (.refl s m)
    | skip hloop' | trySend hloop' | trySendFull hloop' | pauseFull hloop' | blockedSend hloop'
    | blockedClosed hloop' | finish hloop' => cases hloop.symm.trans hloop'
    | _ => cases hl
  | paused hpaused hwaiting | sent hpaused hwaiting =>
    cases hs with
    | checkTable hloop' | skip hloop' | trySend hloop' | trySendFull hloop' | pauseFull hloop'
    | blockedSend hloop' | blockedClosed hloop' | finish hloop' => cases hwaiting.symm.trans hloop'
    | _ => cases hl
  | @sending _ sent rest hpaused htargets hsending hrouted =>
    cases hs with
    | @skip m' name rest' hloop' hno =>
      obtain ⟨rfl, rfl⟩ := Loop.sending.inj (hsending.symm.trans hloop')
      refine .sending hpaused (htargets.trans (List.append_cons ..)) rfl (hrouted.skip ?_)
      -- every channel is open, so this name has none
      rw [Option.eq_none_iff_forall_ne_some]
      intro ch hch
      have hopen := hroom name ch (hrouted.untouched (not_mem_sent htargets) ▸ hch)
      cases (hno ch hch).symm.trans hopen.1
    | @trySend m' name rest' ch hloop' hch hopen hlength =>
      obtain ⟨rfl, rfl⟩ := Loop.sending.inj (hsending.symm.trans hloop')
      refine .sending hpaused (htargets.trans (List.append_cons ..)) rfl ?_
      exact hrouted.push (not_mem_sent htargets) hch
    | @trySendFull m' name rest' ch hloop' hch hopen hfull =>
      obtain ⟨rfl, rfl⟩ := Loop.sending.inj (hsending.symm.trans hloop')
      rw [hrouted.untouched (not_mem_sent htargets)] at hch
      exact absurd (hroom name ch hch).2 (not_lt.mpr hfull)
    | finish hloop' =>
      obtain ⟨rfl, rfl⟩ := Loop.sending.inj (hsending.symm.trans hloop')
      rw [List.append_nil] at htargets
      exact .sent hpaused rfl (htargets ▸ hrouted)
    | checkTable hloop' | pauseFull hloop' | blockedSend hloop' | blockedClosed hloop' =>
      cases hsending.symm.trans hloop'
    | _ => cases hl

/-- What a call has done when it returns. -/
theorem Returns.routed (h : Returns s s') (hloop : s.loop = .distributing m) (hroom : Roomy s) :
    Routed s m (if s.tablePaused m.event then [] else m.event.targets) s' := by
  have hprogress : Progress s m s' := by
    refine h.1.invariant (I := Progress s m) ?_ ?_
    · rintro _ rfl
      exact .begins
    · intro t l t' hprogress hs
      exact hprogress.step hloop hroom hs.1 hs.2
  cases hprogress with
  | begins => cases hloop.symm.trans h.2
  | paused hpaused hwaiting hrouted => rwa [if_pos hpaused]
  | sending hpaused htargets hsending => cases hsending.symm.trans h.2
  | sent hpaused hwaiting hrouted => rwa [if_neg (by simp [hpaused])]

/-! ## Every call returns -/

/-- From the point where these names are still to be tried, with open channels that have room. -/
theorem exists_returns_sending (hnodup : rest.Nodup) (hsending : t.loop = .sending m rest)
    (hroom : ∀ name ∈ rest, ∀ ch, t.taskChannels name = some ch →
      ch.isOpen = true ∧ ch.queue.length < channelCapacity)
    (h : (call s).Reachable t) : ∃ s', Returns s s' := by
  induction rest generalizing t with
  | nil => exact ⟨_, h.step (l := Label.finish) ⟨trivial, .finish hsending⟩, rfl⟩
  | cons name rest ih =>
    obtain ⟨hnew, hnodup⟩ := List.nodup_cons.mp hnodup
    cases hch : t.taskChannels name with
    | none =>
      have hno : t.Unreachable name := by
        intro ch hsome
        cases hch.symm.trans hsome
      have hnext := h.step (l := Label.trySend) ⟨trivial, .skip hsending hno⟩
      refine ih hnodup ?_ ?_ hnext
      · rfl
      · exact fun other hother => hroom other (List.mem_cons_of_mem _ hother)
    | some ch =>
      obtain ⟨hopen, hlength⟩ := hroom name List.mem_cons_self ch hch
      have hnext := h.step (l := Label.trySend) ⟨trivial, .trySend hsending hch hopen hlength⟩
      refine ih hnodup ?_ ?_ hnext
      · rfl
      · intro other hother ch' hch'
        have hne : other ≠ name := by
          rintro rfl
          exact hnew hother
        refine hroom other (List.mem_cons_of_mem _ hother) ch' ?_
        simpa [State.push, State.setChannel, Function.update_of_ne hne] using hch'

theorem exists_returns (hloop : s.loop = .distributing m) (hroom : Roomy s) :
    ∃ s', Returns s s' := by
  have hchecked := (Machine.Reachable.init rfl : (call s).Reachable s).step (l := Label.checkTable)
    ⟨trivial, .checkTable hloop⟩
  cases hpaused : s.tablePaused m.event with
  | true =>
    refine ⟨_, hchecked, ?_⟩
    simp [hpaused]
  | false =>
    refine exists_returns_sending (m := m) (Event.targets_nodup m.event) ?_ ?_ hchecked
    · simp [hpaused]
    · exact fun name _ ch hch => hroom name ch hch

/-! ## The routing -/

/-- **An event goes to the channels that are registered under its names**, if its table is paused
under none of them, and to no channel otherwise. -/
theorem distribute_event_routes {e : CdcEvent} (hevent : m.event = .cdc e)
    (htable : '.' ∉ e.table.toList) (hloop : s.loop = .distributing m) (hroom : Roomy s) :
    (∃ s', Returns s s') ∧ ∀ s', Returns s s' →
      Routed s m (if ∃ name ∈ e.names, name ∈ s.pausedTables then [] else e.names) s' := by
  refine ⟨exists_returns hloop hroom, fun s' hreturns => ?_⟩
  have hrouted := hreturns.routed hloop hroom
  rw [State.tablePaused, hevent, targets_eq_names htable] at hrouted
  simpa using hrouted

/-! ### Names that are paused, have dots, or have no schema -/

/-- A coordinator with channels for these tables, at the beginning of a call. -/
def atCall (tables : List String) (paused : Finset String) (e : CdcEvent) : State :=
  { registered tables with pausedTables := paused, loop := .distributing ⟨0, .cdc e⟩ }

theorem atCall_roomy (tables : List String) (paused : Finset String) (e : CdcEvent) :
    Roomy (atCall tables paused e) := by
  intro name ch hch
  obtain rfl := (registered_starts tables).taskChannels name ch hch
  exact ⟨rfl, by decide⟩

/-- The update of a row. -/
def rowChange (schema table : String) : CdcEvent :=
  ⟨.update, table, schema, [("id", .number (.ofNat 1))], none⟩

/-- The table `public.users` is registered with the schema, and `books` without. -/
theorem distribute_event_routes_users :
    ∃ s', Returns (atCall ["public.users", "books"] {"books"} (rowChange "public" "users")) s' ∧
      s'.taskChannels "public.users" =
        some ⟨[⟨0, .cdc (rowChange "public" "users")⟩], true⟩ ∧
      s'.taskChannels "books" = some ⟨[], true⟩ := by
  obtain ⟨⟨s', hreturns⟩, hroutes⟩ := distribute_event_routes
    (s := atCall ["public.users", "books"] {"books"} (rowChange "public" "users")) rfl
    (by decide) rfl (atCall_roomy _ _ _)
  have hrouted := hroutes s' hreturns
  refine ⟨s', hreturns, ?_, ?_⟩
  · rw [hrouted]
    rfl
  · rw [hrouted]
    rfl

/-- Every run puts the event in the channels that are registered as `s.t` or as `t` and not paused
under their own name, and in no other. -/
def ExactFor (s : State) (m : Message) (e : CdcEvent) : Prop :=
  ∀ s', Returns s s' →
    Routed s m ([e.schema ++ "." ++ e.table, e.table].filter (· ∉ s.pausedTables)) s'

theorem Routed.mem_iff {names names' : List String} (h : Routed s m names s')
    (h' : Routed s m names' s') (hch : s.taskChannels name = some ch) :
    name ∈ names ↔ name ∈ names' := by
  have heq := (h name).symm.trans (h' name)
  rw [hch, Option.map_some, Option.map_some, Option.some.injEq] at heq
  have hne : ({ ch with queue := ch.queue ++ [m] } : TaskChannel) ≠ ch := by
    intro hsame
    have hqueue := congrArg TaskChannel.queue hsame
    simp at hqueue
  by_cases hmem : name ∈ names
  · by_cases hmem' : name ∈ names'
    · exact iff_of_true hmem hmem'
    · rw [if_pos hmem, if_neg hmem'] at heq
      exact absurd heq hne
  · by_cases hmem' : name ∈ names'
    · rw [if_neg hmem, if_pos hmem'] at heq
      exact absurd heq.symm hne
    · exact iff_of_false hmem hmem'

/-- What an exact routing does to a channel the code does too. -/
theorem ExactFor.mem_iff {tables : List String} {paused : Finset String} {e : CdcEvent}
    (h : ExactFor (atCall tables paused e) ⟨0, .cdc e⟩ e) (hname : name ∈ tables) :
    name ∈ [e.schema ++ "." ++ e.table, e.table].filter (· ∉ paused) ↔
      name ∈ if (Event.cdc e).targets.any (· ∈ paused) then [] else (Event.cdc e).targets := by
  obtain ⟨s', hreturns⟩ := exists_returns (s := atCall tables paused e) rfl (atCall_roomy _ _ _)
  have hrouted := hreturns.routed rfl (atCall_roomy _ _ _)
  exact (h s' hreturns).mem_iff hrouted (if_pos hname)

/-- The channel of `public.users` gets nothing while `users` is paused. The channel of `c` gets an
event of the table `b.c`, and that of `.users` none of a table without a schema. -/
theorem routing_not_exact :
    ¬ ExactFor (atCall ["public.users"] {"users"} (rowChange "public" "users"))
      ⟨0, .cdc (rowChange "public" "users")⟩ (rowChange "public" "users") ∧
    ¬ ExactFor (atCall ["c"] ∅ (rowChange "public" "b.c"))
      ⟨0, .cdc (rowChange "public" "b.c")⟩ (rowChange "public" "b.c") ∧
    ¬ ExactFor (atCall [".users"] ∅ (rowChange "" "users"))
      ⟨0, .cdc (rowChange "" "users")⟩ (rowChange "" "users") := by
  refine ⟨fun h => ?_, fun h => ?_, fun h => ?_⟩
  · have hiff := h.mem_iff List.mem_cons_self
    revert hiff
    decide
  · have hiff := h.mem_iff List.mem_cons_self
    revert hiff
    decide
  · have hiff := h.mem_iff List.mem_cons_self
    revert hiff
    decide

end CdcCoordinator

end MeiliBridge
