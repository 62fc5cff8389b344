import MeiliBridge.Base.Chars
import MeiliBridge.Base.Value
import MeiliBridge.Models.Error

/-!
# Streaming an array

`process_array_streaming` finds the elements of an array by counting braces, and gives each of them
to `serde_json` by itself. Braces within strings are counted like all others. `array_streaming_iff`
says for which arrays the texts that it finds are those of the elements.
-/

set_option autoImplicit false

namespace MeiliBridge

namespace StreamingJsonProcessor

/-- The scanner, with the calls of the processor and the text that each value comes from -/
structure Scan where
  count : Nat
  depth : Int32
  inArray : Bool
  currentItem : List Char
  calls : List (List Char × Value)

def Scan.push (s : Scan) (ch : Char) : Scan := { s with currentItem := s.currentItem ++ [ch] }

/-- What the stream has come to -/
structure Streamed where
  calls : List (List Char × Value)
  result : Result Nat

variable (fromStr : List Char → Option Value) (processor : List Value → Value → Result Unit)

/-- The loop over the characters. The processor may look at the values before. -/
def scan : Scan → List Char → Streamed
  | s, [] => ⟨s.calls, .ok s.count⟩
  | s, ch :: rest =>
    if !s.inArray then scan { s with inArray := ch == '[' } rest
    else if ch = '\x7b' then scan { s.push ch with depth := s.depth + 1 } rest
    else if ch = '\x7d' then
      let s : Scan := { s.push ch with depth := s.depth - 1 }
      if s.depth = 0 ∧ Chars.trim s.currentItem ≠ [] then
        match fromStr s.currentItem with
        | some value =>
          let calls := s.calls ++ [(s.currentItem, value)]
          match processor (s.calls.map Prod.snd) value with
          | .ok () => scan { s with count := s.count + 1, calls := calls, currentItem := [] } rest
          | .error e => ⟨calls, .error e⟩
        -- a warning only
        | none => scan { s with currentItem := [] } rest
      else scan s rest
    else if ch = ',' ∧ s.depth = 0 then scan s rest
    else if ch = ']' ∧ s.depth = 0 then ⟨s.calls, .ok s.count⟩
    else scan (if 0 < s.depth ∨ ch ≠ ' ' then s.push ch else s) rest

def processArrayStreaming (json : List Char) : Streamed :=
  scan fromStr processor ⟨0, 0, false, [], []⟩ json

/-! ## Arrays of objects -/

/-- The whitespace of JSON -/
def isSpace (c : Char) : Bool := c == ' ' || c == '\t' || c == '\n' || c == '\r'

abbrev Spaces := { cs : List Char // ∀ c ∈ cs, isSpace c = true }

/-- An object with the whitespace around it -/
structure Element where
  lead : Spaces
  text : List Char
  fields : Fields
  trail : Spaces
  parsed : fromStr text = some (.object fields)
  starts : text.head? = some '\x7b'
  ends : text.getLast? = some '\x7d'

/-- The text of an array -/
structure ArrayText where
  before : Spaces
  elements : List (Element fromStr)
  inner : Spaces
  after : Spaces

variable {fromStr}

def Element.print (e : Element fromStr) : List Char := e.lead.1 ++ e.text ++ e.trail.1

def Element.value (e : Element fromStr) : Value := .object e.fields

/-- What follows the opening bracket; `inner` is the whitespace of an empty array. -/
def printElements (inner : Spaces) : List (Element fromStr) → List Char
  | [] => inner.1 ++ [']']
  | [e] => e.print ++ [']']
  | e :: rest => e.print ++ ',' :: printElements inner rest

@[simp] theorem printElements_cons_cons (inner : Spaces) (e e' : Element fromStr)
    (rest : List (Element fromStr)) : printElements inner (e :: e' :: rest) =
      e.print ++ ',' :: printElements inner (e' :: rest) := rfl

def ArrayText.print (text : ArrayText fromStr) : List Char :=
  text.before.1 ++ '[' :: (printElements text.inner text.elements ++ text.after.1)

/-! ## What the scanner takes -/

/-- The depth after a character -/
def depthAfter (depth : Int32) (c : Char) : Int32 :=
  if c = '\x7b' then depth + 1 else if c = '\x7d' then depth - 1 else depth

/-- The scanner adds the character to the item and goes on with it. -/
def Keeps (depth : Int32) (c : Char) : Prop :=
  if c = '\x7b' then True
  else if c = '\x7d' then depth - 1 ≠ 0
  else if c = ',' ∨ c = ']' then depth ≠ 0
  else 0 < depth ∨ c ≠ ' '

/-- From this depth on the text is one item: all of it is kept, and its last character is the first
brace that takes the depth to 0. -/
def Encloses : Int32 → List Char → Prop
  | _, [] => False
  | depth, [c] => c = '\x7d' ∧ depth - 1 = 0
  | depth, c :: rest => Keeps depth c ∧ Encloses (depthAfter depth c) rest

/-! ## Whole items -/

section
variable (fromStr : List Char → Option Value) (processor : List Value → Value → Result Unit)

theorem scan_keeps {depth : Int32} {c : Char} (h : Keeps depth c) (n : Nat) (item : List Char)
    (calls : List (List Char × Value)) (rest : List Char) :
    scan fromStr processor ⟨n, depth, true, item, calls⟩ (c :: rest) =
      scan fromStr processor ⟨n, depthAfter depth c, true, item ++ [c], calls⟩ rest := by
  rw [scan]
  unfold Keeps at h
  unfold depthAfter
  split_ifs at h ⊢ <;> simp_all [Scan.push]

theorem isSpace_cases {c : Char} (h : isSpace c = true) :
    c = ' ' ∨ c = '\t' ∨ c = '\n' ∨ c = '\r' := by
  simpa [isSpace, or_assoc] using h

/-- Between items the scanner keeps whitespace other than blanks. -/
theorem scan_spaces (n : Nat) (calls : List (List Char × Value)) (rest : List Char) :
    ∀ (ws item : List Char), (∀ c ∈ ws, isSpace c = true) →
      scan fromStr processor ⟨n, 0, true, item, calls⟩ (ws ++ rest) =
        scan fromStr processor ⟨n, 0, true, item ++ ws.filter (· ≠ ' '), calls⟩ rest := by
  intro ws
  induction ws with
  | nil =>
    intro item _
    simp
  | cons c ws ih =>
    intro item hws
    have hws' : ∀ d ∈ ws, isSpace d = true := fun d hd => hws d (List.mem_cons_of_mem _ hd)
    by_cases hblank : c = ' '
    · subst hblank
      rw [List.cons_append, scan]
      simp [ih item hws']
    · have hkeeps : Keeps 0 c ∧ depthAfter 0 c = 0 := by
        obtain rfl | rfl | rfl | rfl := isSpace_cases (hws c List.mem_cons_self) <;>
          simp_all [Keeps, depthAfter]
      rw [List.cons_append, scan_keeps fromStr processor hkeeps.1, hkeeps.2, ih _ hws']
      simp [hblank]

theorem trim_closed (item : List Char) : Chars.trim (item ++ ['\x7d']) ≠ [] :=
  List.ne_nil_of_mem (Chars.mem_trim (c := '\x7d') (by decide) (by simp))

theorem scan_encloses (hprocessor : ∀ before value, processor before value = .ok ()) {value : Value}
    (n : Nat) (calls : List (List Char × Value)) (rest : List Char) :
    ∀ (text : List Char) (depth : Int32) (item : List Char), Encloses depth text →
      fromStr (item ++ text) = some value →
      scan fromStr processor ⟨n, depth, true, item, calls⟩ (text ++ rest) =
        scan fromStr processor ⟨n + 1, 0, true, [], calls ++ [(item ++ text, value)]⟩ rest := by
  intro text
  induction text with
  | nil =>
    intro depth item h _
    exact h.elim
  | cons c text ih =>
    intro depth item h hvalue
    cases text with
    | nil =>
      obtain ⟨rfl, hdepth⟩ := h
      rw [List.cons_append, scan]
      simp [Scan.push, hdepth, trim_closed, hvalue, hprocessor]
    | cons d text =>
      obtain ⟨hkeeps, h⟩ := h
      rw [List.cons_append, scan_keeps fromStr processor hkeeps,
        ih _ (item ++ [c]) h (by simpa using hvalue)]
      simp

end

/-! ## Counting the braces -/

theorem depth_pos {k : Nat} (h : 0 < k) (hk : k < 2 ^ 31) : (0 : Int32) < Int32.ofNat k := by
  rw [Int32.lt_iff_toInt_lt, Int32.toInt_ofNat_of_lt hk]
  simpa using h

theorem depth_up (k : Nat) : Int32.ofNat k + 1 = Int32.ofNat (k + 1) := (Int32.ofNat_add k 1).symm

theorem depth_down (k : Nat) : Int32.ofNat (k + 1) - 1 = Int32.ofNat k := by
  rw [← depth_up, Int32.add_sub_cancel]

theorem depth_zero {k : Nat} (hk : k < 2 ^ 31) : Int32.ofNat k = 0 ↔ k = 0 := by
  constructor
  · intro h
    by_contra hne
    have hpos := depth_pos (Nat.pos_of_ne_zero hne) hk
    rw [h] at hpos
    exact absurd hpos Int32.lt_irrefl
  · intro h
    rw [h]
    rfl

/-- With `k` braces open, the text closes them all with its last character, and not before. -/
def ClosesAtEnd (k : Nat) (text : List Char) : Prop :=
  text ≠ [] ∧ ∀ pre, pre <+: text → pre ≠ [] →
    (k + pre.count '\x7b' = pre.count '\x7d' ↔ pre = text)

theorem ClosesAtEnd.cons_iff {k j : Nat} {c d : Char} {text : List Char}
    (hk : ∀ pre : List Char, k + (c :: pre).count '\x7b' = (c :: pre).count '\x7d' ↔
      j + pre.count '\x7b' = pre.count '\x7d') (hpos : 0 < j) :
    ClosesAtEnd k (c :: d :: text) ↔ ClosesAtEnd j (d :: text) := by
  constructor
  · intro h
    refine ⟨List.cons_ne_nil _ _, fun pre hpre _ => ?_⟩
    rw [← hk, h.2 (c :: pre) ((List.prefix_cons_inj c).mpr hpre) (List.cons_ne_nil _ _)]
    simp
  · intro h
    refine ⟨List.cons_ne_nil _ _, fun pre hpre hne => ?_⟩
    cases pre with
    | nil => exact absurd rfl hne
    | cons b pre =>
      obtain ⟨rfl, hrest⟩ := List.cons_prefix_cons.mp hpre
      rw [hk]
      cases pre with
      | nil =>
        simp
        omega
      | cons a pre =>
        rw [h.2 _ hrest (List.cons_ne_nil _ _)]
        simp

theorem encloses_cons_cons {depth : Int32} {c d : Char} {text : List Char} :
    Encloses depth (c :: d :: text) ↔ Keeps depth c ∧ Encloses (depthAfter depth c) (d :: text) :=
  Iff.rfl

theorem closesAtEnd_singleton {m : Nat} {c : Char} :
    ClosesAtEnd (m + 1) [c] ↔ c = '\x7d' ∧ m + 1 = 1 := by
  constructor
  · intro h
    have hcount := (h.2 [c] (List.prefix_refl _) (List.cons_ne_nil _ _)).mpr rfl
    by_cases hclose : c = '\x7d'
    · subst hclose
      refine ⟨rfl, ?_⟩
      simpa using hcount
    · simp [List.count_singleton, hclose] at hcount
  · rintro ⟨rfl, hm⟩
    refine ⟨List.cons_ne_nil _ _, fun pre hpre hne => ?_⟩
    obtain rfl : pre = ['\x7d'] :=
      hpre.eq_of_length_le (List.length_pos_of_ne_nil hne)
    simp [hm]

theorem depthAfter_open (k : Nat) : depthAfter (Int32.ofNat k) '\x7b' = Int32.ofNat (k + 1) := by
  rw [depthAfter, if_pos rfl, depth_up]

theorem depthAfter_close (k : Nat) : depthAfter (Int32.ofNat (k + 1)) '\x7d' = Int32.ofNat k := by
  rw [depthAfter, if_neg (by simp), if_pos rfl, depth_down]

theorem depthAfter_other {c : Char} (hopen : c ≠ '\x7b') (hclose : c ≠ '\x7d') (depth : Int32) :
    depthAfter depth c = depth := by
  rw [depthAfter, if_neg hopen, if_neg hclose]

theorem keeps_close {k : Nat} (hk : k < 2 ^ 31) : Keeps (Int32.ofNat (k + 1)) '\x7d' ↔ k ≠ 0 := by
  rw [Keeps, if_neg (by simp), if_pos rfl, depth_down, ne_eq, depth_zero hk]

theorem keeps_inside {k : Nat} (hpos : 0 < k) (hk : k < 2 ^ 31) {c : Char} (hclose : c ≠ '\x7d') :
    Keeps (Int32.ofNat k) c := by
  rw [Keeps, if_neg hclose]
  split_ifs
  · rw [ne_eq, depth_zero hk]
    exact Nat.ne_of_gt hpos
  · exact .inl (depth_pos hpos hk)

theorem encloses_iff : ∀ (text : List Char) (k : Nat), 0 < k → k + text.length < 2 ^ 31 →
    (Encloses (Int32.ofNat k) text ↔ ClosesAtEnd k text) := by
  intro text
  induction text with
  | nil =>
    intro k _ _
    exact ⟨fun h => h.elim, fun h => absurd rfl h.1⟩
  | cons c text ih =>
    intro k hpos hk
    have hlength : k + text.length + 1 < 2 ^ 31 := by simpa [Nat.add_assoc] using hk
    obtain ⟨m, rfl⟩ : ∃ m, k = m + 1 := ⟨k - 1, by omega⟩
    cases text with
    | nil =>
      rw [Encloses, depth_down, depth_zero (by omega), closesAtEnd_singleton]
      exact and_congr_right fun _ => by omega
    | cons d text =>
      rw [encloses_cons_cons]
      by_cases hopen : c = '\x7b'
      · subst hopen
        rw [depthAfter_open, ih (m + 2) (by omega) (by omega),
          ClosesAtEnd.cons_iff (j := m + 2) (fun pre => by simp; omega) (by omega)]
        exact and_iff_right (keeps_inside hpos (by omega) (by simp))
      by_cases hclose : c = '\x7d'
      · subst hclose
        rw [depthAfter_close, keeps_close (by omega)]
        by_cases hm : m = 0
        · -- the text is closed before its end
          subst hm
          refine ⟨fun h => absurd rfl h.1, fun h => ?_⟩
          have hcut := (h.2 ['\x7d'] (by simp) (List.cons_ne_nil _ _)).mp (by decide)
          simp at hcut
        · rw [ih m (by omega) (by omega),
            ClosesAtEnd.cons_iff (j := m) (fun pre => by simp; omega) (by omega)]
          exact and_iff_right hm
      · rw [depthAfter_other hopen hclose, ih (m + 1) (by omega) (by omega),
          ClosesAtEnd.cons_iff (j := m + 1) (fun pre => by simp [hopen, hclose]) (by omega)]
        exact and_iff_right (keeps_inside hpos (by omega) hclose)

/-- In an element of less than 2 GiB the scanner needs the braces to be balanced at the end only. -/
theorem Element.encloses_iff {fromStr : List Char → Option Value} (e : Element fromStr)
    (h : e.text.length < 2 ^ 31) : Encloses 0 e.text ↔ ClosesAtEnd 0 e.text := by
  have hstarts := e.starts
  have hends := e.ends
  cases htext : e.text with
  | nil => simp [htext] at hstarts
  | cons c text =>
    rw [htext] at hstarts hends h
    obtain rfl : c = '\x7b' := by simpa using hstarts
    cases text with
    | nil => simp at hends
    | cons d text =>
      have hkeeps : Keeps 0 '\x7b' := by simp [Keeps]
      rw [encloses_cons_cons, ClosesAtEnd.cons_iff (j := 1) (fun pre => by simp; omega)
        Nat.one_pos, ← StreamingJsonProcessor.encloses_iff (d :: text) 1 Nat.one_pos
          (by rw [Nat.add_comm]; exact h)]
      exact and_iff_right hkeeps

/-! ## Every item that is taken is a whole one -/

/-- What the scanner has collected on the way to a depth -/
inductive Grown : List Char → Int32 → Prop
  | start : Grown [] 0
  | push {item : List Char} {depth : Int32} {c : Char} (h : Grown item depth)
      (hkeeps : Keeps depth c) : Grown (item ++ [c]) (depthAfter depth c)

theorem Encloses.cons {depth : Int32} {c : Char} {text : List Char} (hkeeps : Keeps depth c)
    (h : Encloses (depthAfter depth c) text) : Encloses depth (c :: text) := by
  cases text with
  | nil => exact h.elim
  | cons d text => exact ⟨hkeeps, h⟩

theorem Grown.encloses {item : List Char} {depth : Int32} (h : Grown item depth) :
    ∀ text, Encloses depth text → Encloses 0 (item ++ text) := by
  induction h with
  | start =>
    intro text htext
    exact htext
  | push _ hkeeps ih =>
    intro text htext
    simpa using ih _ (htext.cons hkeeps)

theorem Encloses.dropWhile : ∀ {text : List Char}, Encloses 0 text →
    Encloses 0 (text.dropWhile isSpace) := by
  intro text
  induction text with
  | nil => exact fun h => h
  | cons c text ih =>
    intro h
    by_cases hspace : isSpace c = true
    · rw [List.dropWhile_cons_of_pos hspace]
      have hdepth : c ≠ '\x7d' ∧ depthAfter 0 c = 0 := by
        obtain rfl | rfl | rfl | rfl := isSpace_cases hspace <;> simp [depthAfter]
      cases text with
      | nil => exact absurd h.1 hdepth.1
      | cons d text => exact ih (hdepth.2 ▸ h.2)
    · rwa [List.dropWhile_cons_of_neg hspace]

/-- The item grows from depth 0, and those before it are whole. -/
structure Scan.Whole (s : Scan) : Prop where
  item : Grown s.currentItem s.depth
  calls : ∀ call ∈ s.calls, Encloses 0 call.1

theorem Scan.Whole.start : Scan.Whole ⟨0, 0, false, [], []⟩ :=
  ⟨.start, fun _ h => (List.not_mem_nil h).elim⟩

theorem Scan.Whole.keep {s : Scan} (h : s.Whole) {c : Char} (hkeeps : Keeps s.depth c) :
    Scan.Whole { s.push c with depth := depthAfter s.depth c } :=
  ⟨h.item.push hkeeps, h.calls⟩

/-- The item is complete, and the next one starts empty at depth 0. -/
theorem Scan.Whole.close {s : Scan} (h : s.Whole) (hdepth : s.depth - 1 = 0) (n : Nat)
    {taken : List (List Char × Value)}
    (htaken : ∀ call ∈ taken, call.1 = s.currentItem ++ ['\x7d']) :
    Scan.Whole ⟨n, s.depth - 1, s.inArray, [], s.calls ++ taken⟩ := by
  constructor
  · show Grown [] (s.depth - 1)
    rw [hdepth]
    exact .start
  · intro call hcall
    rcases List.mem_append.mp hcall with hcall | hcall
    · exact h.calls call hcall
    · rw [htaken call hcall]
      exact h.item.encloses _ ⟨rfl, hdepth⟩

theorem keeps_other {depth : Int32} {c : Char} (hopen : c ≠ '\x7b') (hclose : c ≠ '\x7d')
    (hcomma : ¬ (c = ',' ∧ depth = 0)) (hend : ¬ (c = ']' ∧ depth = 0))
    (hkept : 0 < depth ∨ c ≠ ' ') : Keeps depth c := by
  rw [Keeps, if_neg hopen, if_neg hclose]
  split_ifs with hsep
  · intro hdepth
    rcases hsep with hc | hc
    · exact hcomma ⟨hc, hdepth⟩
    · exact hend ⟨hc, hdepth⟩
  · exact hkept

theorem scan_calls (fromStr : List Char → Option Value)
    (processor : List Value → Value → Result Unit) (cs : List Char) :
    ∀ s : Scan, s.Whole → ∀ call ∈ (scan fromStr processor s cs).calls, Encloses 0 call.1 := by
  induction cs with
  | nil =>
    intro s h
    exact h.calls
  | cons c cs ih =>
    intro s h
    rw [scan]
    split_ifs with harray hopen hclose hcomma hend hkept
    · exact ih _ ⟨h.item, h.calls⟩
    · apply ih
      simpa [depthAfter, hopen] using h.keep (c := c) (by simp [Keeps, hopen])
    · subst hclose
      -- only a brace that closes the outermost one ends an element
      by_cases hdepth : s.depth - 1 = 0
      · rw [if_pos ⟨hdepth, trim_closed s.currentItem⟩]
        cases hvalue : fromStr (s.push '\x7d').currentItem with
        | none =>
          apply ih
          simpa [Scan.push] using h.close hdepth s.count fun _ h => (List.not_mem_nil h).elim
        | some value =>
          have htaken : ∀ call ∈ [((s.push '\x7d').currentItem, value)],
              call.1 = s.currentItem ++ ['\x7d'] := by simp [Scan.push]
          have hwhole := h.close hdepth (s.count + 1) htaken
          cases hdone : processor (s.calls.map Prod.snd) value with
          | error e =>
            simp only [Scan.push, hdone] at hwhole ⊢
            exact hwhole.calls
          | ok done =>
            simp only [Scan.push, hdone] at hwhole ⊢
            exact ih _ hwhole
      · rw [if_neg fun h => hdepth h.1]
        apply ih
        simpa [depthAfter] using h.keep (c := '\x7d') (by simp [Keeps, hdepth])
    · exact ih _ h
    · exact h.calls
    · apply ih
      simpa [depthAfter, hopen, hclose, Scan.push] using
        h.keep (keeps_other hopen hclose hcomma hend hkept)
    · exact ih _ h

/-! ## The elements of an array -/

/-- The texts that the values come from, without the whitespace before them -/
def Streamed.texts (r : Streamed) : List (List Char) :=
  r.calls.map fun call => call.1.dropWhile isSpace

/-- The processor gets each of the elements, in order, and the result is their number. -/
structure Streamed.Handles {fromStr : List Char → Option Value} (r : Streamed)
    (elements : List (Element fromStr)) : Prop where
  texts : r.texts = elements.map Element.text
  values : r.calls.map Prod.snd = elements.map Element.value
  result : r.result = .ok elements.length

section
variable {fromStr : List Char → Option Value} {processor : List Value → Value → Result Unit}

theorem dropWhile_spaces {ws : List Char} (hws : ∀ c ∈ ws, isSpace c = true)
    (e : Element fromStr) : (ws ++ e.text).dropWhile isSpace = e.text := by
  rw [List.dropWhile_append_of_pos hws]
  have hstarts := e.starts
  cases htext : e.text with
  | nil => simp [htext] at hstarts
  | cons c cs =>
    rw [htext] at hstarts
    obtain rfl : c = '\x7b' := by simpa using hstarts
    rfl

/-- An element between its whitespace, after whitespace that the scanner has kept -/
theorem scan_element (hprocessor : ∀ before value, processor before value = .ok ())
    (hspace : ∀ ws cs : List Char, (∀ c ∈ ws, isSpace c = true) →
      fromStr (ws ++ cs) = fromStr cs)
    (e : Element fromStr) (he : Encloses 0 e.text) (n : Nat) (calls : List (List Char × Value))
    (kept rest : List Char) (hkept : ∀ c ∈ kept, isSpace c = true) :
    ∃ kept' trail, (∀ c ∈ kept', isSpace c = true) ∧ (∀ c ∈ trail, isSpace c = true) ∧
      scan fromStr processor ⟨n, 0, true, kept, calls⟩ (e.print ++ rest) =
        scan fromStr processor ⟨n + 1, 0, true, trail, calls ++ [(kept' ++ e.text, e.value)]⟩
          rest := by
  have hkept' : ∀ c ∈ kept ++ e.lead.1.filter (· ≠ ' '), isSpace c = true := by
    intro c hc
    rcases List.mem_append.mp hc with hc | hc
    · exact hkept c hc
    · exact e.lead.2 c (List.mem_filter.mp hc).1
  refine ⟨_, e.trail.1.filter (· ≠ ' '), hkept',
    fun c hc => e.trail.2 c (List.mem_filter.mp hc).1, ?_⟩
  rw [Element.print, List.append_assoc, List.append_assoc,
    scan_spaces fromStr processor n calls _ _ _ e.lead.2,
    scan_encloses fromStr processor hprocessor n calls _ _ _ _ he
      ((hspace _ _ hkept').trans e.parsed),
    scan_spaces fromStr processor _ _ _ _ _ e.trail.2]
  rfl

theorem scan_comma (n : Nat) (item : List Char) (calls : List (List Char × Value))
    (rest : List Char) : scan fromStr processor ⟨n, 0, true, item, calls⟩ (',' :: rest) =
      scan fromStr processor ⟨n, 0, true, item, calls⟩ rest := by
  rw [scan]
  simp

theorem scan_elements (hprocessor : ∀ before value, processor before value = .ok ())
    (hspace : ∀ ws cs : List Char, (∀ c ∈ ws, isSpace c = true) →
      fromStr (ws ++ cs) = fromStr cs)
    (inner : Spaces) (after : List Char) :
    ∀ (elements : List (Element fromStr)), (∀ e ∈ elements, Encloses 0 e.text) →
      ∀ (n : Nat) (calls : List (List Char × Value)) (kept : List Char),
        (∀ c ∈ kept, isSpace c = true) →
        ∃ taken : List (List Char × Value),
          scan fromStr processor ⟨n, 0, true, kept, calls⟩ (printElements inner elements ++ after) =
            ⟨calls ++ taken, .ok (n + elements.length)⟩ ∧
          (taken.map fun call => call.1.dropWhile isSpace) = elements.map Element.text ∧
          taken.map Prod.snd = elements.map Element.value := by
  intro elements
  -- what is kept is the blanks since the last comma, which go in front of the next element
  induction elements with
  | nil =>
    intro _ n calls kept _
    refine ⟨[], ?_, rfl, rfl⟩
    rw [printElements, List.append_assoc, scan_spaces fromStr processor n calls _ _ _ inner.2,
      List.singleton_append, scan]
    simp
  | cons e elements ih =>
    intro hwhole n calls kept hkept
    obtain ⟨kept', trail, hkept', htrail, hscan⟩ :=
      scan_element hprocessor hspace e (hwhole e List.mem_cons_self) n calls kept
        ((if elements = [] then [']'] else ',' :: printElements inner elements) ++ after) hkept
    have htext : (kept' ++ e.text).dropWhile isSpace = e.text := dropWhile_spaces hkept' e
    -- the last element is followed by the bracket, any other by a comma
    cases elements with
    | nil =>
      refine ⟨[(kept' ++ e.text, e.value)], ?_, by simp [htext], rfl⟩
      rw [printElements, List.append_assoc]
      refine hscan.trans ?_
      rw [if_pos rfl, List.singleton_append, scan]
      simp
    | cons e' elements =>
      obtain ⟨taken, hrest, htexts, hvalues⟩ :=
        ih (fun e h => hwhole e (List.mem_cons_of_mem _ h)) (n + 1)
          (calls ++ [(kept' ++ e.text, e.value)]) trail htrail
      refine ⟨(kept' ++ e.text, e.value) :: taken, ?_, ?_, ?_⟩
      · rw [printElements_cons_cons, List.append_assoc]
        refine hscan.trans ?_
        have hlength : n + 1 + (e' :: elements).length = n + (e :: e' :: elements).length := by
          rw [@List.length_cons _ e (e' :: elements)]
          omega
        rw [if_neg (List.cons_ne_nil _ _), List.cons_append, scan_comma, hrest, List.append_assoc,
          hlength]
        rfl
      · rw [List.map_cons, htext, htexts, List.map_cons (l := e' :: elements)]
      · rw [List.map_cons, hvalues, List.map_cons (l := e' :: elements)]

/-- Before the array only its opening bracket counts. -/
theorem scan_before (rest : List Char) :
    ∀ ws : List Char, (∀ c ∈ ws, isSpace c = true) →
      scan fromStr processor ⟨0, 0, false, [], []⟩ (ws ++ '[' :: rest) =
        scan fromStr processor ⟨0, 0, true, [], []⟩ rest := by
  intro ws
  induction ws with
  | nil =>
    intro _
    rw [List.nil_append, scan]
    simp
  | cons c ws ih =>
    intro hws
    have hc : (c == '[') = false := by
      obtain rfl | rfl | rfl | rfl := isSpace_cases (hws c List.mem_cons_self) <;> rfl
    rw [List.cons_append, scan]
    simpa [hc] using ih fun d hd => hws d (List.mem_cons_of_mem _ hd)

end

/-- For every array of objects and every processor that succeeds, the elements are handled if and
only if the braces of each of them, those in its strings included, are first balanced at its end. -/
theorem array_streaming_iff {fromStr : List Char → Option Value}
    {processor : List Value → Value → Result Unit}
    (hprocessor : ∀ before value, processor before value = .ok ())
    (hspace : ∀ ws cs : List Char, (∀ c ∈ ws, isSpace c = true) →
      fromStr (ws ++ cs) = fromStr cs) (text : ArrayText fromStr) :
    (processArrayStreaming fromStr processor text.print).Handles text.elements ↔
      ∀ e ∈ text.elements, Encloses 0 e.text := by
  constructor
  · intro h e he
    have hmem : e.text ∈ (processArrayStreaming fromStr processor text.print).texts := by
      rw [h.texts]
      exact List.mem_map_of_mem he
    obtain ⟨call, hcall, htext⟩ := List.mem_map.mp hmem
    have hcalls := scan_calls fromStr processor text.print ⟨0, 0, false, [], []⟩ .start
    rw [← htext]
    exact (hcalls call hcall).dropWhile
  · intro hwhole
    obtain ⟨taken, hscan, htexts, hvalues⟩ := scan_elements hprocessor hspace text.inner
      text.after.1 text.elements hwhole 0 [] [] fun _ h => (List.not_mem_nil h).elim
    have hrun : processArrayStreaming fromStr processor text.print =
        ⟨taken, .ok text.elements.length⟩ := by
      rw [processArrayStreaming, ArrayText.print, scan_before _ _ text.before.2, hscan]
      simp
    rw [hrun]
    exact ⟨htexts, hvalues, rfl⟩

/-- A parser of three texts -/
def readSome (cs : List Char) : Option Value :=
  let read := fun text => text = cs.dropWhile isSpace
  if read "\x7b\x7d".toList then some (.object [])
  else if read "\x7b\"id\":\x7b\x7d\x7d".toList then some (.object [("id", .object [])])
  else if read "\x7b\"id\":\"\x7d\"\x7d".toList then some (.object [("id", .string "\x7d")])
  else none

theorem readSome_spaces (ws cs : List Char) (h : ∀ c ∈ ws, isSpace c = true) :
    readSome (ws ++ cs) = readSome cs := by
  simp only [readSome, List.dropWhile_append_of_pos h]

def noSpace : Spaces := ⟨[], fun _ h => (List.not_mem_nil h).elim⟩

def lineFeed : Spaces := ⟨['\n', ' '], by simp [isSpace]⟩

/-- An object in an object, and an empty one on the next line -/
def twoObjects : ArrayText readSome where
  before := noSpace
  elements :=
    [⟨noSpace, "\x7b\"id\":\x7b\x7d\x7d".toList, [("id", .object [])], noSpace, by rfl, by rfl,
        by rfl⟩,
      ⟨lineFeed, "\x7b\x7d".toList, [], noSpace, by rfl, by rfl, by rfl⟩]
  inner := noSpace
  after := noSpace

theorem array_streaming_iff_twoObjects :
    (processArrayStreaming readSome (fun _ _ => .ok ()) twoObjects.print).Handles
      twoObjects.elements := by
  refine (array_streaming_iff (fun _ _ => rfl) readSome_spaces twoObjects).mpr ?_
  simp [twoObjects, Encloses, Keeps, depthAfter]

/-- An object with a closing brace in a string -/
def braceInString : ArrayText readSome where
  before := noSpace
  elements :=
    [⟨noSpace, "\x7b\"id\":\"\x7d\"\x7d".toList, [("id", .string "\x7d")], noSpace, by rfl, by rfl,
        by rfl⟩]
  inner := noSpace
  after := noSpace

/-- The processor gets nothing, and the caller hears of no failure. -/
theorem brace_in_string_lost : braceInString.elements.length = 1 ∧
    (processArrayStreaming readSome (fun _ _ => .ok ()) braceInString.print).calls = [] ∧
      (processArrayStreaming readSome (fun _ _ => .ok ()) braceInString.print).result = .ok 0 := by
  exact ⟨rfl, rfl, rfl⟩

end StreamingJsonProcessor

end MeiliBridge
