import MeiliBridge.Lib.KeyedLog

/-!
# Logs that are read again, and logs that come in another order

A reader of a log of puts and deletes stops at some place and begins again at an earlier one. While
it catches up, what it has built is no state the log ever had: each key may stand at a time of its
own. `AsOf` says between which two times, `AsOf.replay` what reading on does to them, and
`AsOf.exact` that nothing is left of it once the times meet.

Only the order on each key counts (`run_congr`), and what is made of the values can be made of them
before or after (`run_mapValue`).
-/

set_option autoImplicit false

namespace KeyedLog

variable {K V W : Type} [DecidableEq K]

/-! ## Another order -/

/-- The operations on a key, in order. -/
def onKey (k : K) (ops : List (Op K V)) : List (Op K V) := ops.filter (·.key = k)

/-- The operations on each key are the same, in the same order. -/
def SameOnKeys (xs ys : List (Op K V)) : Prop := ∀ k, onKey k xs = onKey k ys

theorem lastOn_eq_getLast? (k : K) (ops : List (Op K V)) : lastOn k ops = (onKey k ops).getLast? :=
  rfl

/-- **Operations on different keys commute.** -/
theorem run_congr {xs ys : List (Op K V)} (h : SameOnKeys xs ys) (m : K → Option V) :
    run xs m = run ys m := by
  funext k
  rw [run_apply, run_apply, lastOn_eq_getLast?, lastOn_eq_getLast?, h k]

/-- A log that does not touch a key leaves it. -/
theorem run_of_untouched {ops : List (Op K V)} {k : K} (h : lastOn k ops = none)
    (m : K → Option V) : run ops m k = m k := by
  rw [run_apply, h]
  rfl

theorem run_of_lastOn {ops : List (Op K V)} {k : K} {o : Op K V} (h : lastOn k ops = some o)
    (m : K → Option V) : run ops m k = o.value := by
  rw [run_apply, h]
  rfl

/-! ## Images -/

/-- The operation on what is made of the values. -/
def Op.mapValue (f : V → W) : Op K V → Op K W
  | .put k v => .put k (f v)
  | .del k => .del k

omit [DecidableEq K] in
@[simp] theorem Op.key_mapValue (f : V → W) (o : Op K V) : (o.mapValue f).key = o.key := by
  cases o <;> rfl

omit [DecidableEq K] in
@[simp] theorem Op.value_mapValue (f : V → W) (o : Op K V) :
    (o.mapValue f).value = o.value.map f := by
  cases o <;> rfl

theorem lastOn_mapValue (f : V → W) (k : K) (ops : List (Op K V)) :
    lastOn k (ops.map (Op.mapValue f)) = (lastOn k ops).map (Op.mapValue f) := by
  have hfilter : (ops.map (Op.mapValue f)).filter (·.key = k) =
      (ops.filter (·.key = k)).map (Op.mapValue f) := by
    rw [List.filter_map]
    congr 1
    refine List.filter_congr fun o _ => ?_
    rw [Function.comp_apply, Op.key_mapValue]
  rw [lastOn, hfilter, List.getLast?_map]
  rfl

/-- **The image of a log runs on the image of the map.** -/
theorem run_mapValue (f : V → W) (ops : List (Op K V)) (m : K → Option V) :
    run (ops.map (Op.mapValue f)) (fun k => (m k).map f) = fun k => (run ops m k).map f := by
  funext k
  cases h : lastOn k ops with
  | none =>
    have hmap : lastOn k (ops.map (Op.mapValue f)) = none := by rw [lastOn_mapValue, h]; rfl
    rw [run_of_untouched hmap, run_of_untouched h]
  | some o =>
    have hmap : lastOn k (ops.map (Op.mapValue f)) = some (o.mapValue f) := by
      rw [lastOn_mapValue, h]
      rfl
    rw [run_of_lastOn hmap, run_of_lastOn h, Op.value_mapValue]

/-! ## Batches -/

/-- Batches that each issue their puts first leave what the whole log leaves. -/
theorem run_flatMap_regroup {batches : List (List (Op K V))}
    (h : ∀ batch ∈ batches, Regroupable batch) (m : K → Option V) :
    run (batches.flatMap regroup) m = run batches.flatten m := by
  induction batches generalizing m with
  | nil => rfl
  | cons batch batches ih =>
    have hbatch : run (regroup batch) m = run batch m :=
      run_regroup_eq_iff.mpr (h batch List.mem_cons_self)
    rw [List.flatMap_cons, List.flatten_cons, run_append, run_append, hbatch]
    exact ih (fun b hb => h b (List.mem_cons_of_mem _ hb)) (run batch m)

omit [DecidableEq K] in
theorem mem_regroup {o : Op K V} {ops : List (Op K V)} : o ∈ regroup ops ↔ o ∈ ops := by
  simp only [regroup, List.mem_append, List.mem_filter]
  cases o.isPut <;> simp

omit [DecidableEq K] in
theorem regroup_perm (ops : List (Op K V)) : (regroup ops).Perm ops :=
  List.filter_append_perm _ ops

/-! ## Logs that are run in part -/

/-- Some operations of the log have run, in any order and any number of times. -/
def PartlyRun (ops : List (Op K V)) (m m' : K → Option V) : Prop :=
  ∃ done, done ⊆ ops ∧ m' = run done m

theorem PartlyRun.refl (ops : List (Op K V)) (m : K → Option V) : PartlyRun ops m m :=
  ⟨[], List.nil_subset _, rfl⟩

theorem PartlyRun.run {ops more : List (Op K V)} {m m' : K → Option V} (h : PartlyRun ops m m')
    (hmore : more ⊆ ops) : PartlyRun ops m (run more m') := by
  obtain ⟨done, hdone, rfl⟩ := h
  exact ⟨done ++ more, List.append_subset.mpr ⟨hdone, hmore⟩, (run_append done more m).symm⟩

theorem PartlyRun.append {xs ys : List (Op K V)} {m m' m'' : K → Option V}
    (hxs : PartlyRun xs m m') (hys : PartlyRun ys m' m'') : PartlyRun (xs ++ ys) m m'' := by
  obtain ⟨done, hdone, rfl⟩ := hxs
  obtain ⟨more, hmore, rfl⟩ := hys
  refine ⟨done ++ more, ?_, (run_append done more m).symm⟩
  exact List.append_subset.mpr ⟨List.Subset.trans hdone (List.subset_append_left _ _),
    List.Subset.trans hmore (List.subset_append_right _ _)⟩

theorem PartlyRun.mono {xs ys : List (Op K V)} {m m' : K → Option V} (h : PartlyRun xs m m')
    (hsub : xs ⊆ ys) : PartlyRun ys m m' := by
  obtain ⟨done, hdone, rfl⟩ := h
  exact ⟨done, List.Subset.trans hdone hsub, rfl⟩

theorem PartlyRun.eq_of_nil {m m' : K → Option V} (h : PartlyRun [] m m') : m' = m := by
  obtain ⟨done, hdone, rfl⟩ := h
  rw [List.subset_nil.mp hdone]
  rfl

/-! ## Reading again -/

/-- A list from the place `start` up to, and without, the place `stop`. -/
def segment {α : Type} (xs : List α) (start stop : Nat) : List α := (xs.take stop).drop start

/-- What the log has left of `m` after `n` operations. -/
def after (ops : List (Op K V)) (m : K → Option V) (n : Nat) : K → Option V :=
  run (ops.take n) m

/-- Each key stands where it stood after some number of operations from `lo` to `hi`. -/
def AsOf (ops : List (Op K V)) (m : K → Option V) (lo hi : Nat) (v : K → Option V) : Prop :=
  ∀ k, ∃ n, lo ≤ n ∧ n ≤ hi ∧ v k = after ops m n k

variable {ops : List (Op K V)} {m v : K → Option V} {lo hi start stop n : Nat}

theorem map_segment {α β : Type} (f : α → β) (xs : List α) (start stop : Nat) :
    (segment xs start stop).map f = segment (xs.map f) start stop := by
  rw [segment, segment, List.map_drop, List.map_take]

/-- The two parts of a segment. -/
theorem segment_eq_append {α : Type} {l xs ys : List α} (h : segment l start stop = xs ++ ys)
    (hle : start ≤ stop) : xs = segment l start (start + xs.length) ∧
      ys = segment l (start + xs.length) stop ∧ start + xs.length ≤ stop := by
  have hlength := congrArg List.length h
  rw [segment, List.length_drop, List.length_take, List.length_append] at hlength
  have hstop : start + xs.length ≤ stop := by omega
  refine ⟨?_, ?_, hstop⟩
  · have hxs : xs = (segment l start stop).take xs.length := by
      rw [h, List.take_left]
    rw [segment, List.take_drop, List.take_take, Nat.min_eq_left hstop] at hxs
    exact hxs
  · have hys : ys = (segment l start stop).drop xs.length := by
      rw [h, List.drop_left]
    rw [hys, segment, segment, List.drop_drop]

omit [DecidableEq K] in
theorem take_segment (ops : List (Op K V)) (h : start ≤ stop) :
    ops.take start ++ segment ops start stop = ops.take stop := by
  have htake : (ops.take stop).take start = ops.take start := by
    rw [List.take_take, Nat.min_eq_left h]
  rw [segment, ← htake]
  exact List.take_append_drop start (ops.take stop)

theorem after_segment (ops : List (Op K V)) (m : K → Option V) (h : start ≤ stop) :
    after ops m stop = run (segment ops start stop) (after ops m start) := by
  rw [after, ← take_segment ops h, run_append]
  rfl

omit [DecidableEq K] in
/-- A later part of a segment. -/
theorem segment_suffix (ops : List (Op K V)) (h : start ≤ n) :
    segment ops n stop <:+ segment ops start stop := by
  obtain ⟨d, rfl⟩ := Nat.exists_eq_add_of_le h
  rw [segment, segment, ← List.drop_drop]
  exact List.drop_suffix _ _

theorem lastOn_suffix {xs ys : List (Op K V)} {k : K} (h : xs <:+ ys) (hys : lastOn k ys = none) :
    lastOn k xs = none := by
  rw [lastOn_eq_none_iff] at hys ⊢
  exact fun o ho => hys o (h.subset ho)

theorem AsOf.mono {lo' hi' : Nat} (h : AsOf ops m lo hi v) (hlo : lo' ≤ lo) (hhi : hi ≤ hi') :
    AsOf ops m lo' hi' v := by
  intro k
  obtain ⟨n, hln, hnh, hv⟩ := h k
  exact ⟨n, Nat.le_trans hlo hln, Nat.le_trans hnh hhi, hv⟩

/-- **Where the times meet, there is one state.** -/
theorem AsOf.exact (h : AsOf ops m n n v) : v = after ops m n := by
  funext k
  obtain ⟨i, hlo, hhi, hv⟩ := h k
  rw [hv, Nat.le_antisymm hhi hlo]

/-- **Reading again from a place that no key is behind** brings every key up to where the reader
gets, and takes none of them past where it has been. -/
theorem AsOf.replay (h : AsOf ops m lo hi v) (hstart : start ≤ lo) (hstop : start ≤ stop) :
    AsOf ops m stop (max hi stop) (run (segment ops start stop) v) := by
  intro k
  cases hlast : lastOn k (segment ops start stop) with
  | some o =>
    -- the key is written: it is where the reader is
    refine ⟨stop, Nat.le_refl stop, Nat.le_max_right hi stop, ?_⟩
    rw [run_of_lastOn hlast, after_segment ops m hstop, run_of_lastOn hlast]
  | none =>
    obtain ⟨n, hln, hnh, hv⟩ := h k
    rw [run_of_untouched hlast]
    by_cases hn : stop ≤ n
    · exact ⟨n, hn, Nat.le_trans hnh (Nat.le_max_left hi stop), hv⟩
    · -- from its own time on the key is not touched either
      have hsuffix : segment ops n stop <:+ segment ops start stop :=
        segment_suffix ops (Nat.le_trans hstart hln)
      refine ⟨stop, Nat.le_refl stop, Nat.le_max_right hi stop, ?_⟩
      rw [after_segment ops m (Nat.le_of_not_le hn), hv,
        run_of_untouched (lastOn_suffix hsuffix hlast)]

/-- An operation of a segment leaves what its key has right after it. -/
theorem after_of_mem {o : Op K V} (h : o ∈ segment ops start stop) (m : K → Option V) :
    ∃ n, start ≤ n ∧ n ≤ stop ∧ after ops m n o.key = o.value := by
  obtain ⟨i, hi, hget⟩ := List.mem_iff_getElem.mp h
  have hlength : (segment ops start stop).length = min stop ops.length - start := by
    rw [segment, List.length_drop, List.length_take]
  have hlt : start + i < ops.length := by omega
  have hop : ops[start + i] = o := by simpa [segment] using hget
  refine ⟨start + i + 1, ?_, ?_, ?_⟩
  · exact Nat.le_add_right_of_le (Nat.le_add_right start i)
  · omega
  · have hlast : ops.take (start + i + 1) = ops.take (start + i) ++ [o] := by
      rw [List.take_succ_eq_append_getElem hlt, hop]
    rw [after, hlast, run_append]
    show Function.update (run (ops.take (start + i)) m) o.key o.value o.key = o.value
    rw [Function.update_self]

/-- **Whatever part of a segment is run, in any order**: each key stands where it once stood. -/
theorem AsOf.partlyRun {v' : K → Option V} (h : AsOf ops m lo hi v)
    (hpart : PartlyRun (segment ops start stop) v v') :
    AsOf ops m (min lo start) (max hi stop) v' := by
  obtain ⟨done, hdone, rfl⟩ := hpart
  intro k
  cases hlast : lastOn k done with
  | some o =>
    obtain ⟨hmem, rfl⟩ := mem_of_lastOn hlast
    obtain ⟨n, hstart, hstop, hn⟩ := after_of_mem (hdone hmem) m
    refine ⟨n, Nat.le_trans (Nat.min_le_right lo start) hstart,
      Nat.le_trans hstop (Nat.le_max_right hi stop), ?_⟩
    rw [run_of_lastOn hlast, hn]
  | none =>
    obtain ⟨n, hlo, hhi, hn⟩ := h k
    refine ⟨n, Nat.le_trans (Nat.min_le_left lo start) hlo,
      Nat.le_trans hhi (Nat.le_max_left hi stop), ?_⟩
    rw [run_of_untouched hlast, hn]

/-- A reader that gets as far as any time in the map has the state of the log there. -/
theorem AsOf.caughtUp (h : AsOf ops m lo hi v) (hstart : start ≤ lo) (hstop : start ≤ stop)
    (hhi : hi ≤ stop) : run (segment ops start stop) v = after ops m stop := by
  have hreplay := h.replay hstart hstop
  rw [Nat.max_eq_right hhi] at hreplay
  exact hreplay.exact

end KeyedLog
