import MeiliBridge.Source.TestDecoderTokens

/-!
# The tokenizer on printed columns

What `tokenize_parts` is for: to cut a row into its columns, which are printed as
`name[type]:value` and joined by spaces. It counts brackets in quotes as well, so a value with an
open bracket takes the columns after it into its token (`tokenize_parts_iff`).
-/

set_option autoImplicit false

namespace MeiliBridge

open TestDecoding

namespace TestDecoder

/-- A character of a printed name -/
def nameChar (c : Char) : Bool := c != '\'' && c != '[' && c != ']' && c != ':' && c != ' '

/-- A character of a word without quotes -/
def wordChar (c : Char) : Bool := c != '\'' && !Text.isWhitespace c

inductive ColumnValue where
  | bare (word : String) (hne : word.toList ≠ []) (h : ∀ c ∈ word.toList, wordChar c = true)
  | quoted (content : String)

def ColumnValue.text : ColumnValue → List Char
  | .bare word _ _ => word.toList
  | .quoted content => TestDecoding.quoted '\'' content.toList

/-- A column of a row, as the plugin prints it -/
structure RowColumn where
  name : String
  typeName : String
  value : ColumnValue
  hname : ∀ c ∈ name.toList, nameChar c = true
  htype : PlainType typeName

namespace RowColumn

/-- `name[type]:value` -/
def text (c : RowColumn) : List Char :=
  c.name.toList ++ ('[' :: (c.typeName.toList ++ [']']) ++ (':' :: c.value.text))

/-- The name is one word to the tokenizer: no tab and no line break in it, and no white space of
another kind before it. -/
def OneWord (c : RowColumn) : Prop :=
  (∀ x ∈ c.name.toList, isSeparator x = false) ∧
    ∀ x ∈ c.name.toList.head?, Text.isWhitespace x = false

/-- Every opening bracket of the value is closed in it. -/
def ClosesBrackets (c : RowColumn) : Prop := depthAfter 0 c.value.text = 0

end RowColumn

/-- The columns of a row, joined by single spaces -/
def rowText (columns : List RowColumn) : List Char :=
  List.intercalate [' '] (columns.map RowColumn.text)

variable {c : RowColumn} {columns : List RowColumn}

@[simp] theorem rowText_singleton (c : RowColumn) : rowText [c] = c.text := by
  simp [rowText]

theorem rowText_cons_cons (c c' : RowColumn) (columns : List RowColumn) :
    rowText (c :: c' :: columns) = c.text ++ ' ' :: rowText (c' :: columns) := by
  simp [rowText, List.intercalate_cons_cons]

theorem rowText_cons (c : RowColumn) (columns : List RowColumn) :
    ∃ rest, rowText (c :: columns) = c.text ++ rest := by
  cases columns with
  | nil => exact ⟨[], by simp⟩
  | cons c' columns => exact ⟨_, rowText_cons_cons c c' columns⟩

theorem separator_whitespace {c : Char} (h : isSeparator c = true) :
    Text.isWhitespace c = true := by
  simp only [isSeparator, Bool.or_eq_true, beq_iff_eq] at h
  obtain (rfl | rfl) | rfl := h
  · rfl
  · rfl
  · rfl

/-! ## The tokenizer goes through a column -/

/-- What follows the first token of the tokenizer, and what that token is made of -/
theorem scan_first {cur : List Char} (hcur : cur ≠ []) (q : Bool) (d : Nat) (cs : List Char) :
    ∃ more tail, scan q d cur cs = Chars.trim (cur ++ more) :: tail := by
  induction cs generalizing q d cur with
  | nil => exact ⟨[], [], by simp [scan, push, hcur]⟩
  | cons c cs ih =>
    -- unless a separator ends it here, the token goes on with this character
    have hnext (q : Bool) (d : Nat) :
        ∃ more tail, scan q d (cur ++ [c]) cs = Chars.trim (cur ++ more) :: tail := by
      have hcur' : cur ++ [c] ≠ [] := by simp
      obtain ⟨more, tail, h⟩ := ih hcur' q d
      exact ⟨c :: more, tail, by rw [h, List.append_assoc, List.singleton_append]⟩
    rw [scan_cons]
    split
    · exact hnext _ _
    · split
      · exact hnext _ _
      · split
        · exact hnext _ _
        · split
          · exact ⟨[], scan q d [] cs, by simp [push, hcur]⟩
          · exact hnext _ _

/-- A word without quotes, whatever brackets are in it -/
theorem scan_word {cs : List Char} (h : ∀ c ∈ cs, wordChar c = true) (d : Nat)
    (cur rest : List Char) :
    scan false d cur (cs ++ rest) = scan false (depthAfter d cs) (cur ++ cs) rest := by
  induction cs generalizing d cur with
  | nil => simp
  | cons c cs ih =>
    have hc := h c List.mem_cons_self
    simp only [wordChar, Bool.and_eq_true, bne_iff_ne, Bool.not_eq_true'] at hc
    have hkeep : ¬ (isSeparator c = true ∧ false = false ∧ d = 0) := by
      intro hsep
      rw [separator_whitespace hsep.1] at hc
      cases hc.2
    have hcs := fun d => ih (fun x hx => h x (List.mem_cons_of_mem _ hx)) d (cur ++ [c])
    rw [List.cons_append, scan_cons, if_neg hc.1, if_neg hkeep, depthAfter_cons]
    simp only [List.append_assoc, List.singleton_append] at hcs
    split
    · exact hcs _
    · split
      · exact hcs _
      · exact hcs _

theorem scan_value (v : ColumnValue) (d : Nat) (cur rest : List Char) :
    scan false d cur (v.text ++ rest) =
      scan false (depthAfter d v.text) (cur ++ v.text) rest := by
  cases v with
  | bare word hne h => exact scan_word h d cur rest
  | quoted content =>
    simp only [ColumnValue.text, depthAfter_quoted]
    exact scan_quoted d cur content.toList rest

theorem nameChar_iff {x : Char} : nameChar x = true ↔
    x ≠ '\'' ∧ x ≠ '[' ∧ x ≠ ']' ∧ x ≠ ':' ∧ x ≠ ' ' := by
  simp [nameChar, and_assoc]

/-- What stands before the value opens and closes the brackets of the type. -/
theorem depthAfter_text (c : RowColumn) : depthAfter 0 c.text = depthAfter 0 c.value.text := by
  have hname : depthAfter 0 c.name.toList = 0 := by
    refine depthAfter_eq_self (fun x hx => ?_) 0
    obtain ⟨-, hopen, hclose, -⟩ := nameChar_iff.mp (c.hname x hx)
    exact ⟨hopen, hclose⟩
  rw [RowColumn.text, depthAfter_append, hname, depthAfter_append, c.htype.depthAfter_brackets,
    depthAfter_colon]

/-- From the bracket of its type on, a column is collected as a whole. -/
theorem scan_column (c : RowColumn) {d : Nat}
    (h : ∀ x ∈ c.name.toList, isSeparator x = true → 0 < d) (cur rest : List Char) :
    scan false d cur (c.text ++ rest) =
      scan false (depthAfter d c.text) (cur ++ c.text) rest := by
  have hname : ∀ x ∈ c.name.toList, x ≠ '\'' ∧ x ≠ '[' ∧ x ≠ ']' ∧
      (isSeparator x = true → false = true ∨ 0 < d) := by
    intro x hx
    obtain ⟨hquote, hopen, hclose, -⟩ := nameChar_iff.mp (c.hname x hx)
    exact ⟨hquote, hopen, hclose, fun hsep => Or.inr (h x hx hsep)⟩
  have hdepth : depthAfter d c.name.toList = d :=
    depthAfter_eq_self (fun x hx => ⟨(hname x hx).2.1, (hname x hx).2.2.1⟩) d
  have htype := scan_type c.htype d (cur ++ c.name.toList) (':' :: (c.value.text ++ rest))
  rw [RowColumn.text, depthAfter_append, hdepth, depthAfter_append, depthAfter_colon,
    List.append_assoc, scan_collect hname]
  simp only [List.cons_append, List.append_assoc, List.nil_append] at htype ⊢
  rw [htype, scan_colon, scan_value]
  simp

theorem text_ne_nil (c : RowColumn) : c.text ≠ [] := by simp [RowColumn.text]

theorem bracket_mem_text (c : RowColumn) : '[' ∈ c.text := by simp [RowColumn.text]

theorem solid_value (v : ColumnValue) : Solid v.text := by
  cases v with
  | bare word hne h =>
    refine solid_of_forall hne fun x hx => ?_
    have hword := h x hx
    simp only [wordChar, Bool.and_eq_true, Bool.not_eq_true'] at hword
    exact hword.2
  | quoted content => exact solid_quoted rfl content.toList

theorem RowColumn.OneWord.solid (h : c.OneWord) : Solid c.text := by
  refine ⟨text_ne_nil c, fun x hx => ?_, fun x hx => ?_⟩
  · cases hname : c.name.toList with
    | nil =>
      rw [RowColumn.text, hname] at hx
      obtain rfl := Option.some.inj hx
      rfl
    | cons y ys =>
      rw [RowColumn.text, hname] at hx
      obtain rfl := Option.some.inj hx
      exact h.2 y (by rw [hname]; rfl)
  · have hvalue := solid_value c.value
    have hlast : c.text.getLast? = c.value.text.getLast? := by
      rw [RowColumn.text, List.getLast?_append_of_ne_nil _ (by simp),
        List.getLast?_append_of_ne_nil _ (by simp), List.getLast?_cons_of_ne_nil hvalue.1]
    rw [hlast] at hx
    exact hvalue.2.2 x hx

/-! ## Rows that are cut into their columns -/

theorem RowColumn.OneWord.not_separated (h : c.OneWord) (d : Nat) :
    ∀ x ∈ c.name.toList, isSeparator x = true → 0 < d := by
  intro x hx hsep
  rw [h.1 x hx] at hsep
  cases hsep

/-- A space ends the token of a column that is one word and closes its brackets. -/
theorem scan_closed (h : c.OneWord) (hclosed : c.ClosesBrackets) (rest : List Char) :
    scan false 0 [] (c.text ++ ' ' :: rest) = c.text :: scan false 0 [] rest := by
  have hdepth : depthAfter 0 c.text = 0 := (depthAfter_text c).trans hclosed
  rw [scan_column c (h.not_separated 0), hdepth, scan_space, if_pos rfl, List.nil_append,
    h.solid.push]

theorem scan_last (h : c.OneWord) : scan false 0 [] c.text = [c.text] := by
  have hscan := scan_column c (h.not_separated 0) [] []
  rw [List.append_nil] at hscan
  rw [hscan, List.nil_append, scan, h.solid.push]

theorem scan_row (hword : ∀ c ∈ columns, c.OneWord)
    (hclosed : ∀ c ∈ columns.dropLast, c.ClosesBrackets) :
    scan false 0 [] (rowText columns) = columns.map RowColumn.text := by
  induction columns with
  | nil => rfl
  | cons c columns ih =>
    have hc := hword c List.mem_cons_self
    cases columns with
    | nil =>
      rw [rowText_singleton]
      exact scan_last hc
    | cons c' columns =>
      rw [List.dropLast_cons_of_ne_nil (by simp)] at hclosed
      rw [rowText_cons_cons, scan_closed hc (hclosed c List.mem_cons_self),
        ih (fun x hx => hword x (List.mem_cons_of_mem _ hx))
          (fun x hx => hclosed x (List.mem_cons_of_mem _ hx))]
      rfl

/-! ## Rows that are not -/

theorem scan_trims {q : Bool} {d : Nat} {cur cs token : List Char}
    (h : token ∈ scan q d cur cs) : ∃ x, token = Chars.trim x := by
  have hpush {cur : List Char} {tokens : List (List Char)}
      (htokens : token ∈ tokens → ∃ x, token = Chars.trim x) (h : token ∈ push cur tokens) :
      ∃ x, token = Chars.trim x := by
    unfold push at h
    split at h
    · exact htokens h
    · rcases List.mem_cons.mp h with h | h
      · exact ⟨cur, h⟩
      · exact htokens h
  induction cs generalizing q d cur with
  | nil =>
    rw [scan] at h
    exact hpush (fun hnil => by cases hnil) h
  | cons c cs ih =>
    rw [scan_cons] at h
    split at h
    · exact ih h
    · split at h
      · exact ih h
      · split at h
        · exact ih h
        · split at h
          · exact hpush ih h
          · exact ih h

/-- If the first token is the first column, its name is one word. -/
theorem oneWord_of_first {rest : List Char} {tail : List (List Char)}
    (h : tokenizeParts (c.text ++ rest) = c.text :: tail) : c.OneWord := by
  have hmem : c.text ∈ scan false 0 [] (c.text ++ rest) := by
    have hfirst : c.text ∈ tokenizeParts (c.text ++ rest) := by
      rw [h]
      exact List.mem_cons_self
    exact (List.mem_filter.mp hfirst).1
  have hhead : ∀ x ∈ c.name.toList.head?, Text.isWhitespace x = false := by
    intro x hx
    obtain ⟨y, hy⟩ := scan_trims hmem
    have hfirst : c.text.head? = some x := by
      rw [RowColumn.text, List.head?_append]
      simp [Option.mem_def.mp hx]
    rw [hy] at hfirst
    exact Chars.trim_head hfirst
  refine ⟨fun x hx => ?_, hhead⟩
  -- a separator in the name ends the first token before the bracket of the type
  by_contra hsep
  obtain ⟨sep, hfind⟩ := Option.isSome_iff_exists.mp
    (List.find?_isSome.mpr ⟨x, hx, eq_true_of_ne_false hsep⟩)
  obtain ⟨hsep, before, after, hname, hbefore⟩ := List.find?_eq_some_iff_append.mp hfind
  have hmem : ∀ y ∈ before, y ∈ c.name.toList := by
    intro y hy
    rw [hname]
    exact List.mem_append_left _ hy
  have hplain : ∀ y ∈ before, y ≠ '\'' ∧ y ≠ '[' ∧ y ≠ ']' ∧
      (isSeparator y = true → false = true ∨ 0 < 0) := by
    intro y hy
    obtain ⟨hquote, hopen, hclose, -⟩ := nameChar_iff.mp (c.hname y (hmem y hy))
    refine ⟨hquote, hopen, hclose, fun hy' => ?_⟩
    have hnot := hbefore y hy
    simp [hy'] at hnot
  cases before with
  | nil =>
    have hblank := hhead sep (by simp [hname])
    rw [separator_whitespace hsep] at hblank
    cases hblank
  | cons y ys =>
    have hy : Text.isWhitespace y = false := hhead y (by simp [hname])
    have hne : Chars.trim (y :: ys) ≠ [] :=
      List.ne_nil_of_mem (Chars.mem_trim hy List.mem_cons_self)
    have hmore : c.text ++ rest = (y :: ys) ++ sep :: (after ++
        ('[' :: (c.typeName.toList ++ [']']) ++ (':' :: c.value.text)) ++ rest) := by
      rw [RowColumn.text, hname]
      simp
    have hsep' : sep ≠ '\'' ∧ sep ≠ '[' ∧ sep ≠ ']' := by
      simp only [isSeparator, Bool.or_eq_true, beq_iff_eq] at hsep
      obtain (rfl | rfl) | rfl := hsep <;> simp
    rw [tokenizeParts, hmore, scan_collect hplain, scan_cons, if_neg hsep'.1, if_neg hsep'.2.1,
      if_neg hsep'.2.2, if_pos ⟨hsep, rfl, rfl⟩, List.nil_append, push, if_neg (by simp),
      List.filter_cons_of_pos (by simpa using hne)] at h
    have hbracket := bracket_mem_text c
    rw [← (List.cons.inj h).1] at hbracket
    have hname' := c.hname '[' (hmem _ (Chars.mem_of_mem_trim rfl hbracket))
    cases hname'

/-- If an open bracket takes the next column in, the first token is longer than the first column. -/
theorem closed_of_first {c' : RowColumn} {tail : List (List Char)} (hword : c.OneWord)
    (h : tokenizeParts (rowText (c :: c' :: columns)) = c.text :: tail) : c.ClosesBrackets := by
  by_contra hopen
  have hdepth : depthAfter 0 c.text ≠ 0 := fun h => hopen ((depthAfter_text c).symm.trans h)
  obtain ⟨rest, hrest⟩ := rowText_cons c' columns
  have hscan : scan false 0 [] (rowText (c :: c' :: columns)) =
      scan false (depthAfter (depthAfter 0 c.text) c'.text) (c.text ++ ' ' :: c'.text) rest := by
    rw [rowText_cons_cons, scan_column c (hword.not_separated 0), scan_space, if_neg hdepth, hrest,
      scan_column c' fun _ _ _ => Nat.pos_of_ne_zero hdepth]
    simp
  have hbegun : c.text ++ ' ' :: c'.text ≠ [] := by simp
  obtain ⟨more, tail', hfirst⟩ := scan_first hbegun false
    (depthAfter (depthAfter 0 c.text) c'.text) rest
  -- the bracket of the next column is in the token, and trimming does not take it away
  have hbracket : '[' ∈ Chars.trim (c.text ++ ' ' :: c'.text ++ more) := by
    apply Chars.mem_trim rfl
    simp [bracket_mem_text c]
  rw [tokenizeParts, hscan, hfirst,
    List.filter_cons_of_pos (by simpa using List.ne_nil_of_mem hbracket)] at h
  have hfilter := congrArg (List.filter (!Text.isWhitespace ·)) (List.cons.inj h).1
  rw [Chars.filter_trim, List.append_assoc, List.filter_append,
    List.append_right_eq_self] at hfilter
  have hmem : '[' ∈ (' ' :: c'.text ++ more).filter (!Text.isWhitespace ·) :=
    List.mem_filter.mpr ⟨by simp [bracket_mem_text c'], rfl⟩
  rw [hfilter] at hmem
  cases hmem

/-- **A row is cut into its columns if and only if the name of each is one word and each but the
last closes the brackets in its value.** -/
theorem tokenize_parts_iff (columns : List RowColumn) :
    tokenizeParts (rowText columns) = columns.map RowColumn.text ↔
      (∀ c ∈ columns, c.OneWord) ∧ ∀ c ∈ columns.dropLast, c.ClosesBrackets := by
  constructor
  · intro h
    induction columns with
    | nil => exact ⟨fun c hc => (List.not_mem_nil hc).elim, fun c hc => (List.not_mem_nil hc).elim⟩
    | cons c columns ih =>
      obtain ⟨rest, hrest⟩ := rowText_cons c columns
      have hword : c.OneWord := oneWord_of_first (hrest ▸ h)
      cases columns with
      | nil =>
        exact ⟨List.forall_mem_singleton.mpr hword, fun x hx => (List.not_mem_nil hx).elim⟩
      | cons c' columns =>
        have hclosed := closed_of_first hword h
        rw [tokenizeParts, rowText_cons_cons, scan_closed hword hclosed,
          List.filter_cons_of_pos (by simpa using text_ne_nil c)] at h
        obtain ⟨hwords, hcloses⟩ := ih (List.cons.inj h).2
        rw [List.dropLast_cons_of_ne_nil (by simp)]
        exact ⟨List.forall_mem_cons.mpr ⟨hword, hwords⟩,
          List.forall_mem_cons.mpr ⟨hclosed, hcloses⟩⟩
  · intro h
    rw [tokenizeParts, scan_row h.1 h.2, List.filter_eq_self]
    intro token htoken
    obtain ⟨c, -, rfl⟩ := List.mem_map.mp htoken
    simpa using text_ne_nil c

/-- A text column with a value in quotes -/
def textColumn (name content : String) (h : (name.toList.all nameChar) = true) : RowColumn where
  name := name
  typeName := "text"
  value := .quoted content
  hname := List.all_eq_true.mp h
  htype := ⟨"text".toList, List.all_eq_true.mp rfl, Or.inl rfl⟩

/-- `a[text]:'[' b[text]:'x'` -/
def openRow : List RowColumn := [textColumn "a" "[" rfl, textColumn "b" "x" rfl]

/-- An open bracket in quotes takes the next column into its token. -/
theorem open_bracket_not_cut :
    ¬ ∀ columns : List RowColumn,
      tokenizeParts (rowText columns) = columns.map RowColumn.text := by
  intro h
  have hopen := h openRow
  revert hopen
  decide

end TestDecoder

end MeiliBridge
