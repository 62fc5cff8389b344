import Mathlib.Algebra.BigOperators.Group.List.Basic
import MeiliBridge.Destination.Adapter

/-!
# The groups of a list of events

`process_events` sorts its events into one group per index and goes over the groups in the order of
a hash map. `lookup_groupEvents` says that a group holds the events of its index in their order;
`sum_iterate` that whatever is added up over the groups, in any order, is added up once per event.
-/

set_option autoImplicit false

namespace MeiliBridge

namespace MeilisearchAdapter

variable {rt : Runtime} {a : MeilisearchAdapter}

/-- The events routed to an index, in order. -/
def eventsOf (rt : Runtime) (a : MeilisearchAdapter) (indexName : String) (events : List Event) :
    List Event :=
  events.filter fun e => a.indexName rt e = some indexName

theorem groupEvents_snoc {e : Event} {name : String} (h : a.indexName rt e = some name)
    (events : List Event) :
    a.groupEvents rt (events ++ [e]) = pushEvent name e (a.groupEvents rt events) := by
  simp only [groupEvents, List.foldl_append, List.foldl_cons, List.foldl_nil, h]

theorem groupEvents_snoc_none {e : Event} (h : a.indexName rt e = none) (events : List Event) :
    a.groupEvents rt (events ++ [e]) = a.groupEvents rt events := by
  simp only [groupEvents, List.foldl_append, List.foldl_cons, List.foldl_nil, h]

/-! ## One event more -/

theorem mem_names_pushEvent {indexName name : String} {e : Event}
    {groups : List (String × List Event)} :
    name ∈ (pushEvent indexName e groups).map Prod.fst ↔
      name = indexName ∨ name ∈ groups.map Prod.fst := by
  induction groups with
  | nil => simp [pushEvent]
  | cons group groups ih =>
    obtain ⟨n, evs⟩ := group
    unfold pushEvent
    split
    · next heq => simp [heq]
    · simp only [List.map_cons, List.mem_cons, ih]
      exact or_left_comm

theorem names_pushEvent_nodup {indexName : String} {e : Event} {groups : List (String × List Event)}
    (h : (groups.map Prod.fst).Nodup) : ((pushEvent indexName e groups).map Prod.fst).Nodup := by
  induction groups with
  | nil => simp [pushEvent]
  | cons group groups ih =>
    obtain ⟨n, evs⟩ := group
    rw [List.map_cons, List.nodup_cons] at h
    unfold pushEvent
    split
    · exact List.nodup_cons.mpr h
    · next hne =>
      refine List.nodup_cons.mpr ⟨?_, ih h.2⟩
      rw [mem_names_pushEvent, not_or]
      exact ⟨hne, h.1⟩

theorem lookup_pushEvent (indexName name : String) (e : Event)
    (groups : List (String × List Event)) :
    (pushEvent indexName e groups).lookup name =
      if name = indexName then some ((groups.lookup name).getD [] ++ [e])
      else groups.lookup name := by
  induction groups with
  | nil =>
    by_cases h : name = indexName
    · simp [pushEvent, h]
    · simp [pushEvent, List.lookup_cons, h, beq_false_of_ne h]
  | cons group groups ih =>
    obtain ⟨n, evs⟩ := group
    unfold pushEvent
    split
    · next heq =>
      subst heq
      by_cases h : name = n
      · simp [h]
      · simp [List.lookup_cons, h, beq_false_of_ne h]
    · next hne =>
      by_cases h : name = n
      · subst h
        simp [hne]
      · rw [List.lookup_cons, beq_false_of_ne h, List.lookup_cons, beq_false_of_ne h]
        exact ih

/-- What an event adds to a sum over the groups. -/
theorem sum_pushEvent (f : String → Event → Nat) (indexName : String) (e : Event)
    (groups : List (String × List Event)) :
    ((pushEvent indexName e groups).map fun group => (group.2.map (f group.1)).sum).sum =
      (groups.map fun group => (group.2.map (f group.1)).sum).sum + f indexName e := by
  induction groups with
  | nil => simp [pushEvent]
  | cons group groups ih =>
    obtain ⟨n, evs⟩ := group
    unfold pushEvent
    split
    · next heq =>
      subst heq
      simp only [List.map_cons, List.sum_cons, List.map_append, List.sum_append, List.map_nil,
        List.sum_nil]
      omega
    · rw [List.map_cons, List.sum_cons, ih, List.map_cons, List.sum_cons]
      omega

/-! ## All events -/

theorem names_groupEvents_nodup (rt : Runtime) (a : MeilisearchAdapter) (events : List Event) :
    ((a.groupEvents rt events).map Prod.fst).Nodup := by
  induction events using List.reverseRec with
  | nil => exact List.nodup_nil
  | append_singleton events e ih =>
    cases h : a.indexName rt e with
    | none =>
      rw [groupEvents_snoc_none h]
      exact ih
    | some name =>
      rw [groupEvents_snoc h]
      exact names_pushEvent_nodup ih

theorem eventsOf_snoc (indexName : String) (events : List Event) (e : Event) :
    a.eventsOf rt indexName (events ++ [e]) =
      a.eventsOf rt indexName events ++ if a.indexName rt e = some indexName then [e] else [] := by
  by_cases h : a.indexName rt e = some indexName <;> simp [eventsOf, h]

/-- **A group holds the events of its index, in order.** -/
theorem lookup_groupEvents (indexName : String) (events : List Event) :
    (a.groupEvents rt events).lookup indexName =
      if a.eventsOf rt indexName events = [] then none
      else some (a.eventsOf rt indexName events) := by
  induction events using List.reverseRec with
  | nil => rfl
  | append_singleton events e ih =>
    rw [eventsOf_snoc]
    cases h : a.indexName rt e with
    | none =>
      rw [groupEvents_snoc_none h, ih]
      simp
    | some name =>
      rw [groupEvents_snoc h, lookup_pushEvent, ih]
      by_cases hname : indexName = name
      · subst hname
        by_cases hnil : a.eventsOf rt indexName events = [] <;> simp [hnil]
      · have hne : ¬ name = indexName := fun heq => hname heq.symm
        simp [hname, hne]

theorem lookup_of_mem {groups : List (String × List Event)} (h : (groups.map Prod.fst).Nodup)
    {name : String} {indexEvents : List Event} (hmem : (name, indexEvents) ∈ groups) :
    groups.lookup name = some indexEvents := by
  induction groups with
  | nil => cases hmem
  | cons group groups ih =>
    obtain ⟨n, evs⟩ := group
    rw [List.map_cons, List.nodup_cons] at h
    rcases List.mem_cons.mp hmem with heq | hmem
    · cases heq
      simp
    · have hname : name ∈ groups.map Prod.fst :=
        List.mem_map.mpr ⟨(name, indexEvents), hmem, rfl⟩
      have hne : name ≠ n := fun heq => h.1 (heq ▸ hname)
      rw [List.lookup_cons, beq_false_of_ne hne]
      exact ih h.2 hmem

theorem mem_groupEvents {indexName : String} {indexEvents events : List Event} :
    (indexName, indexEvents) ∈ a.groupEvents rt events ↔
      indexEvents = a.eventsOf rt indexName events ∧ indexEvents ≠ [] := by
  have hlookup := @lookup_groupEvents rt a indexName events
  constructor
  · intro hmem
    rw [lookup_of_mem (names_groupEvents_nodup rt a events) hmem] at hlookup
    split at hlookup
    · cases hlookup
    · next hne =>
      obtain rfl := Option.some.inj hlookup
      exact ⟨rfl, hne⟩
  · rintro ⟨rfl, hne⟩
    rw [if_neg hne] at hlookup
    obtain ⟨xs, ys, hgroups, -⟩ := List.lookup_eq_some_iff.mp hlookup
    simp [hgroups]

theorem sum_groupEvents (f : String → Event → Nat) (events : List Event) :
    ((a.groupEvents rt events).map fun group => (group.2.map (f group.1)).sum).sum =
      (events.map fun e => ((a.indexName rt e).map fun name => f name e).getD 0).sum := by
  induction events using List.reverseRec with
  | nil => rfl
  | append_singleton events e ih =>
    cases h : a.indexName rt e with
    | none => simp [groupEvents_snoc_none h, ih, h]
    | some name => simp [groupEvents_snoc h, sum_pushEvent, ih, h]

/-! ## The order of the map -/

theorem filterMap_lookup_names {groups : List (String × List Event)}
    (h : (groups.map Prod.fst).Nodup) :
    ((groups.map Prod.fst).filterMap fun name =>
      (groups.lookup name).map fun events => (name, events)) = groups := by
  induction groups with
  | nil => rfl
  | cons group groups ih =>
    obtain ⟨n, evs⟩ := group
    rw [List.map_cons, List.nodup_cons] at h
    have hrest : ((groups.map Prod.fst).filterMap fun name =>
        (((n, evs) :: groups).lookup name).map fun events => (name, events)) =
        (groups.map Prod.fst).filterMap fun name =>
          (groups.lookup name).map fun events => (name, events) := by
      apply List.filterMap_congr
      intro name hname
      have hne : name ≠ n := fun heq => h.1 (heq ▸ hname)
      rw [List.lookup_cons, beq_false_of_ne hne]
    rw [List.map_cons, List.filterMap_cons, hrest, ih h.2]
    simp

/-- Each group is taken once. -/
theorem iterate_perm (a : MeilisearchAdapter) {groups : List (String × List Event)}
    (h : (groups.map Prod.fst).Nodup) : (a.iterate groups).Perm groups := by
  have hperm := (a.hashOrder_perm (groups.map Prod.fst)).filterMap fun name =>
    (groups.lookup name).map fun events => (name, events)
  rw [filterMap_lookup_names h] at hperm
  exact hperm

theorem mem_iterate {indexName : String} {indexEvents events : List Event} :
    (indexName, indexEvents) ∈ a.iterate (a.groupEvents rt events) ↔
      indexEvents = a.eventsOf rt indexName events ∧ indexEvents ≠ [] := by
  rw [(a.iterate_perm (names_groupEvents_nodup rt a events)).mem_iff, mem_groupEvents]

/-- **What is added up over the groups is added up once per event**, in whatever order the groups
are taken. -/
theorem sum_iterate (f : String → Event → Nat) (events : List Event) :
    ((a.iterate (a.groupEvents rt events)).map fun group => (group.2.map (f group.1)).sum).sum =
      (events.map fun e => ((a.indexName rt e).map fun name => f name e).getD 0).sum := by
  rw [← sum_groupEvents]
  exact ((a.iterate_perm (names_groupEvents_nodup rt a events)).map _).sum_eq

end MeilisearchAdapter

end MeiliBridge
