import MeiliBridge.Source.TestDecoder
import MeiliBridge.Source.TestDecoding

/-!
# How the test_decoding parser reads a line

A line whose identifiers and types hold none of the tokenizer's own characters is read item by item:
a literal leaves the tokenizer out of quotes and changes only its depth of brackets, and while that
is not zero the items that follow are swallowed by the token that has been begun.
-/

set_option autoImplicit false

namespace MeiliBridge

open TestDecoding

namespace TestDecoder

/-! ## The state of the tokenizer after some characters -/

/-- The depth of brackets after some characters, in quotes or not -/
def depthAfter (depth : Nat) (cs : List Char) : Nat :=
  cs.foldl (fun d c => if c = '[' then min (d + 1) maxDepth else if c = ']' then d - 1 else d) depth

@[simp] theorem depthAfter_nil (d : Nat) : depthAfter d [] = d := rfl

theorem depthAfter_cons (d : Nat) (c : Char) (cs : List Char) : depthAfter d (c :: cs) =
    depthAfter (if c = '[' then min (d + 1) maxDepth else if c = ']' then d - 1 else d) cs := rfl

theorem depthAfter_append (d : Nat) (cs ds : List Char) :
    depthAfter d (cs ++ ds) = depthAfter (depthAfter d cs) ds :=
  List.foldl_append

/-- Only a bracket changes the depth. -/
theorem depthAfter_skip {c : Char} (hopen : c ≠ '[') (hclose : c ≠ ']') (d : Nat)
    (cs : List Char) : depthAfter d (c :: cs) = depthAfter d cs := by
  rw [depthAfter_cons, if_neg hopen, if_neg hclose]

theorem depthAfter_space (d : Nat) (cs : List Char) :
    depthAfter d (' ' :: cs) = depthAfter d cs := rfl

theorem depthAfter_colon (d : Nat) (cs : List Char) :
    depthAfter d (':' :: cs) = depthAfter d cs := rfl

/-- Without brackets the depth stays. -/
theorem depthAfter_eq_self {cs : List Char} (h : ∀ c ∈ cs, c ≠ '[' ∧ c ≠ ']') (d : Nat) :
    depthAfter d cs = d := by
  induction cs with
  | nil => rfl
  | cons c cs ih =>
    obtain ⟨hopen, hclose⟩ := h c List.mem_cons_self
    rw [depthAfter_skip hopen hclose]
    exact ih fun x hx => h x (List.mem_cons_of_mem _ hx)

/-- A character of the tokenizer, where the look-ahead makes no difference: two quotes in a row
leave a quoted text and enter it again. -/
theorem scan_cons (q : Bool) (d : Nat) (cur : List Char) (c : Char) (cs : List Char) :
    scan q d cur (c :: cs) =
      if c = '\'' then scan (!q) d (cur ++ [c]) cs
      else if c = '[' then scan q (min (d + 1) maxDepth) (cur ++ [c]) cs
      else if c = ']' then scan q (d - 1) (cur ++ [c]) cs
      else if isSeparator c ∧ q = false ∧ d = 0 then push cur (scan q d [] cs)
      else scan q d (cur ++ [c]) cs := by
  by_cases hpair : q = true ∧ c = '\'' ∧ cs.head? = some '\''
  · obtain ⟨rfl, rfl, hhead⟩ := hpair
    cases cs with
    | nil => cases hhead
    | cons c' cs =>
      obtain rfl := Option.some.inj hhead
      simp [scan]
  · cases q with
    | false => rw [scan]; simp
    | true =>
      rw [scan]
      intro cs' _ hc hcs
      exact hpair ⟨rfl, hc, by rw [hcs]; rfl⟩

theorem scan_quote (q : Bool) (d : Nat) (cur cs : List Char) :
    scan q d cur ('\'' :: cs) = scan (!q) d (cur ++ ['\'']) cs := by
  rw [scan_cons, if_pos rfl]

theorem scan_open (q : Bool) (d : Nat) (cur cs : List Char) :
    scan q d cur ('[' :: cs) = scan q (min (d + 1) maxDepth) (cur ++ ['[']) cs := by
  rw [scan_cons, if_neg (by decide), if_pos rfl]

theorem scan_close (q : Bool) (d : Nat) (cur cs : List Char) :
    scan q d cur (']' :: cs) = scan q (d - 1) (cur ++ [']']) cs := by
  rw [scan_cons, if_neg (by decide), if_neg (by decide), if_pos rfl]

/-- Between brackets a space is collected. -/
theorem scan_space (d : Nat) (cur cs : List Char) : scan false d cur (' ' :: cs) =
    if d = 0 then push cur (scan false d [] cs) else scan false d (cur ++ [' ']) cs := by
  have hsep : isSeparator ' ' = true := rfl
  rw [scan_cons, if_neg (by decide), if_neg (by decide), if_neg (by decide)]
  simp only [hsep, true_and]

theorem depthAfter_open (d : Nat) (cs : List Char) :
    depthAfter d ('[' :: cs) = depthAfter (min (d + 1) maxDepth) cs := rfl

theorem depthAfter_close (d : Nat) (cs : List Char) :
    depthAfter d (']' :: cs) = depthAfter (d - 1) cs := rfl

/-- What is neither a quote nor a bracket is collected, unless it separates tokens. -/
theorem scan_collect {q : Bool} {d : Nat} {cs : List Char}
    (h : ∀ c ∈ cs, c ≠ '\'' ∧ c ≠ '[' ∧ c ≠ ']' ∧ (isSeparator c = true → q = true ∨ 0 < d))
    (cur rest : List Char) : scan q d cur (cs ++ rest) = scan q d (cur ++ cs) rest := by
  induction cs generalizing cur with
  | nil => simp
  | cons c cs ih =>
    obtain ⟨hquote, hopen, hclose, hsep⟩ := h c List.mem_cons_self
    have hkeep : ¬ (isSeparator c = true ∧ q = false ∧ d = 0) := by
      rintro ⟨hc, rfl, rfl⟩
      simpa using hsep hc
    rw [List.cons_append, scan_cons, if_neg hquote, if_neg hopen, if_neg hclose, if_neg hkeep,
      ih fun x hx => h x (List.mem_cons_of_mem _ hx), List.append_assoc]
    rfl

theorem double_cons_self (quote : Char) (cs : List Char) :
    double quote (quote :: cs) = quote :: quote :: double quote cs := by
  simp [double]

theorem double_cons_ne {quote c : Char} (h : c ≠ quote) (cs : List Char) :
    double quote (c :: cs) = c :: double quote cs := by
  simp [double, h]

theorem double_eq_self {quote : Char} {cs : List Char} (h : quote ∉ cs) : double quote cs = cs := by
  induction cs with
  | nil => rfl
  | cons c cs ih =>
    have hne : c ≠ quote := fun heq => h (heq ▸ List.mem_cons_self)
    rw [double_cons_ne hne, ih fun hmem => h (List.mem_cons_of_mem _ hmem)]

theorem depthAfter_double (d : Nat) (cs : List Char) :
    depthAfter d (double '\'' cs) = depthAfter d cs := by
  induction cs generalizing d with
  | nil => rfl
  | cons c cs ih =>
    by_cases hquote : c = '\''
    · subst hquote
      simpa [double_cons_self, depthAfter_cons] using ih d
    · rw [double_cons_ne hquote, depthAfter_cons, depthAfter_cons, ih]

/-- The text of a literal, in its quotes -/
theorem scan_double (d : Nat) (cur cs rest : List Char) :
    scan true d cur (double '\'' cs ++ rest) =
      scan true (depthAfter d cs) (cur ++ double '\'' cs) rest := by
  induction cs generalizing d cur with
  | nil => simp [double]
  | cons c cs ih =>
    by_cases hquote : c = '\''
    · subst hquote
      rw [double_cons_self, List.cons_append, List.cons_append, scan_quote, Bool.not_true,
        scan_quote, Bool.not_false, ih, depthAfter_cons]
      simp
    · have hkeep : ¬ (isSeparator c = true ∧ true = false ∧ d = 0) := by simp
      rw [double_cons_ne hquote, List.cons_append, scan_cons, if_neg hquote, if_neg hkeep,
        depthAfter_cons]
      split
      · rw [ih, List.append_assoc]
        rfl
      · split
        · rw [ih, List.append_assoc]
          rfl
        · rw [ih, List.append_assoc]
          rfl

theorem depthAfter_quoted (d : Nat) (cs : List Char) :
    depthAfter d (quoted '\'' cs) = depthAfter d cs := by
  rw [quoted, depthAfter_cons, depthAfter_append, depthAfter_cons]
  simp [depthAfter_double]

/-- A literal in quotes, with whatever text -/
theorem scan_quoted (d : Nat) (cur cs rest : List Char) :
    scan false d cur (quoted '\'' cs ++ rest) =
      scan false (depthAfter d cs) (cur ++ quoted '\'' cs) rest := by
  rw [quoted, List.cons_append, List.append_assoc, scan_quote, Bool.not_false, scan_double,
    List.singleton_append, scan_quote, Bool.not_true]
  simp

/-! ## Items -/

/-- A character that the tokenizer collects in every state. -/
def collectedChar (c : Char) : Bool := c != '\'' && c != '[' && c != ']' && !isSeparator c

/-- A character that neither the tokenizer nor the splitting of a token looks at. -/
def plainChar (c : Char) : Bool :=
  c != '\'' && c != '[' && c != ']' && c != ':' && !isSeparator c

/-- A name of plain characters -/
def PlainName (name : String) : Prop := ∀ c ∈ name.toList, plainChar c = true

/-- A character of a type's name: it may also be a blank. -/
def typeChar (c : Char) : Bool := c != '\'' && c != '[' && c != ']' && c != ':'

/-- The name of a type, or of an array of it. -/
def PlainType (typeName : String) : Prop :=
  ∃ base : List Char, (∀ c ∈ base, typeChar c = true) ∧
    (typeName.toList = base ∨ typeName.toList = base ++ ['[', ']'])

def PlainItem : Item → Prop
  | .column c => PlainName c.name ∧ PlainType c.typeName
  | .oldKey | .newTuple | .noTuple => True

theorem collectedChar_iff {c : Char} : collectedChar c = true ↔
    c ≠ '\'' ∧ c ≠ '[' ∧ c ≠ ']' ∧ isSeparator c = false := by
  simp [collectedChar, and_assoc]

theorem plainChar_iff {c : Char} : plainChar c = true ↔
    c ≠ '\'' ∧ c ≠ '[' ∧ c ≠ ']' ∧ c ≠ ':' ∧ isSeparator c = false := by
  simp [plainChar, and_assoc]

theorem typeChar_iff {c : Char} : typeChar c = true ↔
    c ≠ '\'' ∧ c ≠ '[' ∧ c ≠ ']' ∧ c ≠ ':' := by
  simp [typeChar, and_assoc]

section

variable {keyword : String → Bool}

/-- Quoting adds nothing but double quotes. -/
theorem mem_quoteIdentifier {name : String} {c : Char} (h : c ∈ quoteIdentifier keyword name) :
    c ∈ name.toList ∨ c = '"' := by
  rw [quoteIdentifier] at h
  split at h
  · exact Or.inl h
  · simp only [quoted, double, List.mem_cons, List.mem_append, List.mem_flatMap, List.not_mem_nil,
      or_false] at h
    rcases h with rfl | ⟨x, hx, hc⟩ | rfl
    · exact Or.inr rfl
    · split at hc
      · simp only [List.mem_cons, List.not_mem_nil, or_false, or_self] at hc
        exact Or.inr hc
      · obtain rfl := List.mem_singleton.mp hc
        exact Or.inl hx
    · exact Or.inr rfl

theorem PlainName.quoteIdentifier {name : String} (h : PlainName name) :
    ∀ c ∈ quoteIdentifier keyword name, plainChar c = true := by
  intro c hc
  rcases mem_quoteIdentifier hc with hc | rfl
  · exact h c hc
  · rfl

theorem number_plain {c : Char} (h : c ∈ numberChars) : plainChar c = true := by
  have hall : numberChars.all plainChar = true := by decide
  exact List.all_eq_true.mp hall c h

/-- What is neither a quote, a bracket nor a blank is collected, and the depth stays. -/
theorem scan_collected {q : Bool} {cs : List Char}
    (h : ∀ c ∈ cs, collectedChar c = true) (d : Nat)
    (cur rest : List Char) :
    scan q d cur (cs ++ rest) = scan q (depthAfter d cs) (cur ++ cs) rest := by
  rw [depthAfter_eq_self]
  · refine scan_collect (fun c hc => ?_) cur rest
    obtain ⟨hquote, hopen, hclose, hsep⟩ := collectedChar_iff.mp (h c hc)
    exact ⟨hquote, hopen, hclose, fun hc => by simp [hc] at hsep⟩
  · intro c hc
    obtain ⟨-, hopen, hclose, -⟩ := collectedChar_iff.mp (h c hc)
    exact ⟨hopen, hclose⟩

theorem depthAfter_plain {cs : List Char} (h : ∀ c ∈ cs, plainChar c = true) (d : Nat) :
    depthAfter d cs = d := by
  refine depthAfter_eq_self (fun c hc => ?_) d
  obtain ⟨-, hopen, hclose, -⟩ := plainChar_iff.mp (h c hc)
  exact ⟨hopen, hclose⟩

theorem scan_plain {q : Bool} {d : Nat} {cs : List Char} (h : ∀ c ∈ cs, plainChar c = true)
    (cur rest : List Char) : scan q d cur (cs ++ rest) = scan q d (cur ++ cs) rest := by
  rw [scan_collected (d := d), depthAfter_plain h]
  intro c hc
  obtain ⟨hquote, hopen, hclose, -, hsep⟩ := plainChar_iff.mp (h c hc)
  exact collectedChar_iff.mpr ⟨hquote, hopen, hclose, hsep⟩

theorem depthAfter_type {base : List Char} (h : ∀ c ∈ base, typeChar c = true) (d : Nat) :
    depthAfter d base = d := by
  refine depthAfter_eq_self (fun c hc => ?_) d
  obtain ⟨-, hopen, hclose, -⟩ := typeChar_iff.mp (h c hc)
  exact ⟨hopen, hclose⟩

/-- The depth between the brackets of a type is not zero. -/
theorem depth_open (d : Nat) : 0 < min (d + 1) maxDepth := by
  unfold maxDepth
  omega

/-- The brackets around a type are closed after it. -/
theorem PlainType.depthAfter_brackets {typeName : String} (h : PlainType typeName) :
    depthAfter 0 ('[' :: (typeName.toList ++ [']'])) = 0 := by
  obtain ⟨base, hbase, htype⟩ := h
  have hdepth := depthAfter_type hbase
  rcases htype with htype | htype
  · rw [htype, depthAfter_open, depthAfter_append, hdepth]
    rfl
  · rw [htype, depthAfter_open, depthAfter_append, depthAfter_append, hdepth]
    rfl

/-- A type between its brackets: the blanks in it do not end the token. -/
theorem scan_type {typeName : String} (h : PlainType typeName) (d : Nat) (cur rest : List Char) :
    scan false d cur ('[' :: (typeName.toList ++ ']' :: rest)) =
      scan false (depthAfter d ('[' :: (typeName.toList ++ [']'])))
        (cur ++ '[' :: (typeName.toList ++ [']'])) rest := by
  obtain ⟨base, hbase, htype⟩ := h
  have hcollect {d : Nat} (hd : 0 < d) (cur rest : List Char) :
      scan false d cur (base ++ rest) = scan false d (cur ++ base) rest := by
    refine scan_collect (fun c hc => ?_) cur rest
    obtain ⟨hquote, hopen, hclose, -⟩ := typeChar_iff.mp (hbase c hc)
    exact ⟨hquote, hopen, hclose, fun _ => Or.inr hd⟩
  have hdepth := depthAfter_type hbase
  have hopened := depth_open d
  rcases htype with htype | htype
  · rw [htype, scan_open, hcollect hopened, scan_close, depthAfter_open, depthAfter_append, hdepth,
      depthAfter_close]
    simp
  · rw [htype, List.append_assoc, scan_open, hcollect hopened]
    simp only [List.cons_append, List.nil_append]
    have hbrackets : depthAfter d ('[' :: (base ++ ['[', ']'] ++ [']'])) =
        min (min (d + 1) maxDepth + 1) maxDepth - 1 - 1 := by
      rw [depthAfter_open, depthAfter_append, depthAfter_append, hdepth]
      rfl
    rw [scan_open, scan_close, scan_close, hbrackets]
    simp

/-- The digits of a bit string -/
def bitsText (bs : List Bool) : List Char := bs.map fun b => if b then '1' else '0'

theorem bits_literal (bs : List Bool) :
    (Datum.bits bs).literal = 'B' :: quoted '\'' (bitsText bs) := by
  have hliteral : (Datum.bits bs).literal = 'B' :: '\'' :: (bitsText bs ++ ['\'']) := rfl
  rw [hliteral, quoted, double_eq_self]
  · intro hmem
    obtain ⟨b, -, hb⟩ := List.mem_map.mp hmem
    cases b <;> simp at hb

/-- The digits of a bit string have no brackets before them. -/
theorem depthAfter_bits (d : Nat) (bs : List Bool) :
    depthAfter d (Datum.bits bs).literal = depthAfter d (bitsText bs) := by
  rw [bits_literal, ← depthAfter_quoted d (bitsText bs)]
  rfl

theorem text_literal (s : String) : (Datum.text s).literal = quoted '\'' s.toList := rfl

theorem other_literal (s : String) : (Datum.other s).literal = quoted '\'' s.toList := rfl

/-- A literal leaves the quotes it enters. -/
theorem scan_literal (datum : Datum) (d : Nat) (cur rest : List Char) :
    scan false d cur (datum.literal ++ rest) =
      scan false (depthAfter d datum.literal) (cur ++ datum.literal) rest := by
  have hplain {cs : List Char} (h : ∀ c ∈ cs, plainChar c = true) :
      scan false d cur (cs ++ rest) = scan false (depthAfter d cs) (cur ++ cs) rest := by
    rw [scan_plain h, depthAfter_plain h]
  cases datum with
  | null => exact hplain (List.all_eq_true.mp rfl)
  | number n => exact hplain fun c hc => number_plain (n.2.2 c hc)
  | boolean b =>
    cases b with
    | true => exact hplain (List.all_eq_true.mp rfl)
    | false => exact hplain (List.all_eq_true.mp rfl)
  | bits bs =>
    have hB : ∀ c ∈ ['B'], plainChar c = true := List.all_eq_true.mp rfl
    have hbits := scan_quoted d (cur ++ ['B']) (bitsText bs) rest
    rw [depthAfter_bits, bits_literal, List.cons_append, ← List.singleton_append, scan_plain hB,
      hbits]
    simp
  | text s => rw [text_literal, scan_quoted, depthAfter_quoted]
  | other s => rw [other_literal, scan_quoted, depthAfter_quoted]
  | unchangedToast => exact hplain (List.all_eq_true.mp rfl)

theorem text_column (c : PrintedColumn) : (Item.column c).text keyword =
    quoteIdentifier keyword c.name ++ ('[' :: (c.typeName.toList ++ [']']) ++
      (':' :: c.datum.literal)) := by
  have htext : (Item.column c).text keyword = quoteIdentifier keyword c.name ++
      '[' :: (c.typeName.toList ++ ']' :: ':' :: c.datum.literal) := rfl
  simp [htext]

theorem text_oldKey : Item.oldKey.text keyword = "old-key:".toList := rfl

theorem text_newTuple : Item.newTuple.text keyword = "new-tuple:".toList := rfl

theorem text_noTuple : Item.noTuple.text keyword = "(no-tuple-data)".toList := rfl

/-- Between its brackets a plain type leaves the depth as it was. -/
theorem depthAfter_column {c : PrintedColumn} (h : PlainName c.name ∧ PlainType c.typeName) :
    depthAfter 0 ((Item.column c).text keyword) = depthAfter 0 c.datum.literal := by
  obtain ⟨hname, htype⟩ := h
  rw [text_column, depthAfter_append, depthAfter_plain hname.quoteIdentifier, depthAfter_append,
    htype.depthAfter_brackets, depthAfter_colon]

/-- A colon is collected like any other character. -/
theorem scan_colon (d : Nat) (cur rest : List Char) :
    scan false d cur (':' :: rest) = scan false d (cur ++ [':']) rest := by
  have hkeep : ¬ (isSeparator ':' = true ∧ false = false ∧ d = 0) := fun h => by
    cases h.1
  rw [scan_cons, if_neg (by decide), if_neg (by decide), if_neg (by decide), if_neg hkeep]

/-- The tokenizer goes through an item without leaving its token. -/
theorem scan_item {i : Item} (h : PlainItem i) (d : Nat) (cur rest : List Char) :
    scan false d cur (i.text keyword ++ rest) =
      scan false (depthAfter d (i.text keyword)) (cur ++ i.text keyword) rest := by
  cases i with
  | column c =>
    obtain ⟨hname, htype⟩ := h
    have htypeScan := scan_type htype d (cur ++ quoteIdentifier keyword c.name)
      (':' :: (c.datum.literal ++ rest))
    have hdepth : depthAfter d ((Item.column c).text keyword) =
        depthAfter (depthAfter d ('[' :: (c.typeName.toList ++ [']']))) c.datum.literal := by
      rw [text_column, depthAfter_append, depthAfter_plain hname.quoteIdentifier,
        depthAfter_append, depthAfter_colon]
    rw [hdepth, text_column, List.append_assoc, scan_plain hname.quoteIdentifier]
    simp only [List.cons_append, List.append_assoc, List.nil_append] at htypeScan ⊢
    rw [htypeScan, scan_colon, scan_literal]
    simp
  | oldKey => exact scan_collected (List.all_eq_true.mp rfl) d cur rest
  | newTuple => exact scan_collected (List.all_eq_true.mp rfl) d cur rest
  | noTuple => exact scan_collected (List.all_eq_true.mp rfl) d cur rest

/-- The tokens of some items: what has been begun goes on while its brackets are open. -/
def tokensOf (keyword : String → Bool) : Nat → List Char → List Item → List (List Char)
  | _, cur, [] => push cur []
  | d, cur, i :: is =>
    if d = 0 then push cur (tokensOf keyword (depthAfter 0 (i.text keyword)) (i.text keyword) is)
    else tokensOf keyword (depthAfter d (i.text keyword)) (cur ++ ' ' :: i.text keyword) is

theorem scan_items {items : List Item} (h : ∀ i ∈ items, PlainItem i) (d : Nat) (cur : List Char) :
    scan false d cur (itemsText keyword items) = tokensOf keyword d cur items := by
  induction items generalizing d cur with
  | nil =>
    rw [itemsText, List.flatMap_nil, tokensOf]
    cases cur <;> rfl
  | cons i is ih =>
    have hi := h i List.mem_cons_self
    have his := fun d cur => ih (fun x hx => h x (List.mem_cons_of_mem _ hx)) d cur
    rw [itemsText, List.flatMap_cons, List.cons_append, scan_space, tokensOf]
    by_cases hd : d = 0
    · subst hd
      rw [if_pos rfl, if_pos rfl, scan_item hi, List.nil_append]
      exact congrArg (push cur) (his _ _)
    · rw [if_neg hd, if_neg hd, scan_item hi, List.append_assoc, List.singleton_append]
      exact his _ _

end

end TestDecoder

end MeiliBridge
