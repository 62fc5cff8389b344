import MeiliBridge.Source.TestDecoderScan

/-!
# What the test_decoding parser makes of the items of a line

A token begins with the text of one item. The name of its column is the printed name, the value is
what stands after the colon: the literal, and after it the items that were swallowed.
-/

set_option autoImplicit false

namespace MeiliBridge

open TestDecoding

namespace TestDecoder

/-! ## Texts without blanks around them -/

/-- Not empty, and nothing to trim. -/
def Solid (cs : List Char) : Prop := cs ≠ [] ∧ Chars.Trimmed cs

theorem Solid.append {cs ds : List Char} (hcs : Solid cs) (hds : Solid ds) (mid : List Char) :
    Solid (cs ++ (mid ++ ds)) := by
  have hne : mid ++ ds ≠ [] := by simp [hds.1]
  refine ⟨by simp [hcs.1], Chars.trimmed_append hcs.1 hne hcs.2.1 ?_⟩
  rw [List.getLast?_append_of_ne_nil _ hds.1]
  exact hds.2.2

theorem Solid.trim {cs : List Char} (h : Solid cs) : Chars.trim cs = cs := Chars.trim_eq_self h.2

theorem Solid.push {cs : List Char} (h : Solid cs) (tokens : List (List Char)) :
    push cs tokens = cs :: tokens := by
  rw [TestDecoder.push, if_neg h.1, h.trim]

/-- A text is solid when its characters are no blanks. -/
theorem solid_of_forall {cs : List Char} (hne : cs ≠ [])
    (h : ∀ c ∈ cs, Text.isWhitespace c = false) : Solid cs :=
  ⟨hne, fun c hc => h c (List.mem_of_mem_head? hc), fun c hc => h c (List.mem_of_mem_getLast? hc)⟩

/-- A text of some characters, none of which is a blank, by computation. -/
theorem solid_of_any {cs : List Char} (hne : cs ≠ []) (h : cs.any Text.isWhitespace = false) :
    Solid cs :=
  solid_of_forall hne fun c hc => by simpa using List.any_eq_false.mp h c hc

theorem solid_quoted {quote : Char} (h : Text.isWhitespace quote = false) (cs : List Char) :
    Solid (quoted quote cs) := by
  have hquote : Solid [quote] := solid_of_forall (by simp) (by simpa using h)
  simpa [quoted] using hquote.append hquote (double quote cs)

theorem safeChar_not_blank {c : Char} (h : isSafeChar c = true) : Text.isWhitespace c = false := by
  have hrange : (97 ≤ c.toNat ∧ c.toNat ≤ 122) ∨ c = '_' ∨ (48 ≤ c.toNat ∧ c.toNat ≤ 57) := by
    simp only [isSafeChar, isSafeStart, Bool.or_eq_true, Bool.and_eq_true, decide_eq_true_eq,
      beq_iff_eq] at h
    rcases h with (⟨hlow, hhigh⟩ | hunder) | ⟨hlow, hhigh⟩
    · exact Or.inl ⟨hlow, hhigh⟩
    · exact Or.inr (Or.inl hunder)
    · exact Or.inr (Or.inr ⟨hlow, hhigh⟩)
  rcases hrange with h | rfl | h
  · simp [Text.isWhitespace]
    omega
  · rfl
  · simp [Text.isWhitespace]
    omega

section

variable {keyword : String → Bool}

/-- A name that is printed as it is has the characters of one. -/
theorem isSafe_chars {name : String} (h : isSafe keyword name = true) :
    name.toList ≠ [] ∧ ∀ c ∈ name.toList, isSafeChar c = true := by
  rw [isSafe, Bool.and_eq_true] at h
  have hname := h.1
  cases hcs : name.toList with
  | nil => simp [hcs] at hname
  | cons c cs =>
    rw [hcs] at hname
    simp only [Bool.and_eq_true, List.all_eq_true] at hname
    refine ⟨by simp, fun x hx => ?_⟩
    rcases List.mem_cons.mp hx with rfl | hx
    · simp [isSafeChar, hname.1]
    · exact hname.2 x hx

theorem solid_quoteIdentifier (name : String) : Solid (quoteIdentifier keyword name) := by
  rw [quoteIdentifier]
  split
  · next h =>
    obtain ⟨hne, hchars⟩ := isSafe_chars h
    exact solid_of_forall hne fun c hc => safeChar_not_blank (hchars c hc)
  · exact solid_quoted rfl _

theorem length_double (quote : Char) (cs : List Char) : cs.length ≤ (double quote cs).length := by
  induction cs with
  | nil => simp [double]
  | cons c cs ih =>
    by_cases h : c = quote
    · subst h
      rw [double_cons_self]
      simp only [List.length_cons]
      omega
    · rw [double_cons_ne h]
      simp only [List.length_cons]
      omega

/-- Only a name that is printed as it is keeps its length. -/
theorem length_quoteIdentifier (name : String) :
    (quoteIdentifier keyword name).length = name.toList.length ∧ isSafe keyword name = true ∨
      name.toList.length + 2 ≤ (quoteIdentifier keyword name).length := by
  rw [quoteIdentifier]
  split
  · next h => exact Or.inl ⟨rfl, h⟩
  · have hdouble := length_double '"' name.toList
    right
    simp only [quoted, List.length_cons, List.length_append, List.length_nil]
    omega

/-- A name is printed as it is if and only if it is safe. -/
theorem quoteIdentifier_eq_iff (name : String) :
    quoteIdentifier keyword name = name.toList ↔ isSafe keyword name = true := by
  constructor
  · intro h
    rcases length_quoteIdentifier name with hsafe | hlonger
    · exact hsafe.2
    · rw [h] at hlonger
      omega
  · intro h
    rw [quoteIdentifier, if_pos h]

theorem double_injective (quote : Char) : Function.Injective (double quote) := by
  intro cs
  induction cs with
  | nil =>
    intro ds h
    cases ds with
    | nil => rfl
    | cons d ds =>
      by_cases hd : d = quote
      · subst hd
        rw [double_cons_self] at h
        cases h
      · rw [double_cons_ne hd] at h
        cases h
  | cons c cs ih =>
    intro ds h
    cases ds with
    | nil =>
      by_cases hc : c = quote
      · subst hc
        rw [double_cons_self] at h
        cases h
      · rw [double_cons_ne hc] at h
        cases h
    | cons d ds =>
      -- a quote becomes two, so the first characters already tell the two texts apart
      by_cases hc : c = quote
      · subst hc
        by_cases hd : d = c
        · subst hd
          rw [double_cons_self, double_cons_self] at h
          rw [ih (List.cons.inj (List.cons.inj h).2).2]
        · rw [double_cons_self, double_cons_ne hd] at h
          exact absurd (List.cons.inj h).1.symm hd
      · by_cases hd : d = quote
        · subst hd
          rw [double_cons_ne hc, double_cons_self] at h
          exact absurd (List.cons.inj h).1 hc
        · rw [double_cons_ne hc, double_cons_ne hd] at h
          rw [(List.cons.inj h).1, ih (List.cons.inj h).2]

/-- Different identifiers are printed differently. -/
theorem quoteIdentifier_injective : Function.Injective (quoteIdentifier keyword) := by
  have hsafe {name : String} (h : isSafe keyword name = true) {cs : List Char} :
      name.toList ≠ quoted '"' cs := by
    intro heq
    have hquote := (isSafe_chars h).2 '"' (heq ▸ List.mem_cons_self)
    exact absurd hquote (by decide)
  intro name name' h
  rw [quoteIdentifier, quoteIdentifier] at h
  split at h
  · next hname =>
    split at h
    · exact String.toList_injective h
    · exact absurd h (hsafe hname)
  · split at h
    · next hname' => exact absurd h.symm (hsafe hname')
    · have hinner := List.append_cancel_right (List.cons.inj h).2
      exact String.toList_injective (double_injective '"' hinner)

theorem solid_literal (datum : Datum) : Solid datum.literal := by
  cases datum with
  | null => exact solid_of_any (by decide) rfl
  | number n =>
    have hnone : numberChars.any Text.isWhitespace = false := rfl
    refine solid_of_forall n.2.1 fun c hc => ?_
    simpa using List.any_eq_false.mp hnone c (n.2.2 c hc)
  | boolean b =>
    cases b with
    | true => exact solid_of_any (by decide) rfl
    | false => exact solid_of_any (by decide) rfl
  | bits bs =>
    rw [bits_literal]
    have hB : Solid ['B'] := solid_of_any (by decide) rfl
    exact hB.append (solid_quoted rfl (bitsText bs)) []
  | text s | other s => exact solid_quoted rfl s.toList
  | unchangedToast => exact solid_of_any (by decide) rfl

theorem solid_text (i : Item) : Solid (i.text keyword) := by
  cases i with
  | column c =>
    have h := (@solid_quoteIdentifier keyword c.name).append (solid_literal c.datum)
      ('[' :: (c.typeName.toList ++ [']', ':']))
    rw [text_column]
    simpa using h
  | oldKey =>
    rw [text_oldKey]
    exact solid_of_any (by decide) rfl
  | newTuple =>
    rw [text_newTuple]
    exact solid_of_any (by decide) rfl
  | noTuple =>
    rw [text_noTuple]
    exact solid_of_any (by decide) rfl

/-! ## Tokens -/

/-- A token that begins with an item. -/
def Begun (keyword : String → Bool) (i : Item) (token : List Char) : Prop :=
  Solid token ∧ i.text keyword <+: token

theorem begun_text (i : Item) : Begun keyword i (i.text keyword) :=
  ⟨solid_text i, List.prefix_refl _⟩

/-- The items that begin a token: those before which every bracket is closed. -/
def heads (keyword : String → Bool) : Nat → List Item → List Item
  | _, [] => []
  | d, i :: is =>
    if d = 0 then i :: heads keyword (depthAfter 0 (i.text keyword)) is
    else heads keyword (depthAfter d (i.text keyword)) is

/-- Each token after the one that has been begun begins with its own item. -/
theorem tokensOf_begun {i : Item} {cur : List Char} (h : Begun keyword i cur) (d : Nat)
    (items : List Item) :
    List.Forall₂ (Begun keyword) (i :: heads keyword d items) (tokensOf keyword d cur items) := by
  induction items generalizing i cur d with
  | nil =>
    rw [tokensOf, h.1.push, heads]
    exact .cons h .nil
  | cons j is ih =>
    rw [tokensOf, heads]
    split
    · rw [h.1.push]
      exact .cons h (ih (begun_text j) _)
    · refine ih ⟨?_, h.2.trans (List.prefix_append _ _)⟩ _
      exact h.1.append (solid_text j) [' ']

theorem tokensOf_start (items : List Item) :
    List.Forall₂ (Begun keyword) (heads keyword 0 items) (tokensOf keyword 0 [] items) := by
  cases items with
  | nil => exact .nil
  | cons i is =>
    rw [tokensOf, heads, if_pos rfl, if_pos rfl]
    exact tokensOf_begun (begun_text i) _ is

theorem exists_begun {items : List Item} {tokens : List (List Char)}
    (h : List.Forall₂ (Begun keyword) items tokens) {token : List Char} (htoken : token ∈ tokens) :
    ∃ i ∈ items, Begun keyword i token := by
  induction h with
  | nil => cases htoken
  | @cons i _ _ _ hbegun _ ih =>
    rcases List.mem_cons.mp htoken with rfl | htoken
    · exact ⟨i, List.mem_cons_self, hbegun⟩
    · obtain ⟨j, hj, hbegun⟩ := ih htoken
      exact ⟨j, List.mem_cons_of_mem i hj, hbegun⟩

theorem solid_items (i : Item) (is : List Item) :
    Solid (i.text keyword ++ itemsText keyword is) := by
  induction is generalizing i with
  | nil => simpa [itemsText] using solid_text i
  | cons j is ih => simpa [itemsText] using (solid_text i).append (ih j) [' ']

/-- The tokenizer finds the tokens of the items in the trimmed rest of a line. -/
theorem tokenizeParts_items {items : List Item} (h : ∀ i ∈ items, PlainItem i) :
    tokenizeParts (Chars.trim (itemsText keyword items)) = tokensOf keyword 0 [] items := by
  have htrim : scan false 0 [] (Chars.trim (itemsText keyword items)) =
      scan false 0 [] (itemsText keyword items) := by
    cases items with
    | nil => rfl
    | cons i is =>
      have hcons : itemsText keyword (i :: is) = ' ' :: (i.text keyword ++ itemsText keyword is) :=
        by simp [itemsText]
      rw [hcons, Chars.trim_cons rfl, (solid_items i is).trim, scan_space, if_pos rfl]
      rfl
  rw [tokenizeParts, htrim, scan_items h, List.filter_eq_self]
  intro token htoken
  obtain ⟨i, -, hbegun⟩ := exists_begun (tokensOf_start items) htoken
  simpa using hbegun.1.1

theorem push_append (cur : List Char) (tokens : List (List Char)) :
    push cur tokens = push cur [] ++ tokens := by
  rw [push, push]
  split
  · rfl
  · rfl

theorem depthAfter_items (d : Nat) (i : Item) (is : List Item) :
    depthAfter d (itemsText keyword (i :: is)) =
      depthAfter (depthAfter d (i.text keyword)) (itemsText keyword is) := by
  rw [itemsText, List.flatMap_cons, depthAfter_append, depthAfter_space]
  rfl

/-- Where every bracket is closed the items before and after are read apart. -/
theorem tokensOf_append {d : Nat} {items : List Item}
    (h : depthAfter d (itemsText keyword items) = 0) (cur : List Char) (rest : List Item) :
    tokensOf keyword d cur (items ++ rest) =
      tokensOf keyword d cur items ++ tokensOf keyword 0 [] rest := by
  induction items generalizing d cur with
  | nil =>
    obtain rfl : d = 0 := h
    rw [List.nil_append, tokensOf]
    cases rest with
    | nil => simp [tokensOf, push]
    | cons i is =>
      rw [tokensOf, tokensOf, if_pos rfl, if_pos rfl, push_append]
      rfl
  | cons i is ih =>
    have hrest : depthAfter (depthAfter d (i.text keyword)) (itemsText keyword is) = 0 := by
      rwa [depthAfter_items] at h
    rw [List.cons_append, tokensOf, tokensOf]
    split
    · next hd =>
      subst hd
      rw [ih hrest, push_append, push_append cur (tokensOf _ _ _ is), List.append_assoc]
    · exact ih hrest _

/-! ## Items that are read one by one -/

/-- Every item but the last closes the brackets that it opens. -/
def Closed (keyword : String → Bool) (items : List Item) : Prop :=
  ∀ i ∈ items.dropLast, depthAfter 0 (i.text keyword) = 0

theorem Closed.tail {i j : Item} {is : List Item} (h : Closed keyword (i :: j :: is)) :
    depthAfter 0 (i.text keyword) = 0 ∧ Closed keyword (j :: is) := by
  rw [Closed, List.dropLast_cons_of_ne_nil (by simp)] at h
  exact ⟨h i List.mem_cons_self, fun x hx => h x (List.mem_cons_of_mem _ hx)⟩

/-- Then the tokens are the items. -/
theorem Closed.tokens {items : List Item} (h : Closed keyword items) :
    tokensOf keyword 0 [] items = items.map (Item.text keyword) := by
  have hpush (cur : List Char) :
      tokensOf keyword 0 cur items = push cur (items.map (Item.text keyword)) := by
    induction items generalizing cur with
    | nil => rfl
    | cons i is ih =>
      rw [tokensOf, if_pos rfl, List.map_cons]
      congr 1
      cases is with
      | nil => exact (solid_text i).push []
      | cons j is =>
        obtain ⟨hclosed, htail⟩ := h.tail
        rw [hclosed, ih htail, (solid_text i).push]
  exact hpush []

theorem heads_length_le (d : Nat) (items : List Item) :
    (heads keyword d items).length ≤ items.length := by
  induction items generalizing d with
  | nil => exact Nat.le_refl 0
  | cons i is ih =>
    rw [heads]
    split
    · exact Nat.succ_le_succ (ih _)
    · exact Nat.le_succ_of_le (ih _)

theorem heads_sublist (d : Nat) (items : List Item) : (heads keyword d items).Sublist items := by
  induction items generalizing d with
  | nil => exact List.Sublist.refl _
  | cons i is ih =>
    rw [heads]
    split
    · exact (ih _).cons_cons i
    · exact (ih _).cons i

/-- When every item begins a token, the brackets are closed before each. -/
theorem closed_of_heads {items : List Item} (h : (heads keyword 0 items).length = items.length) :
    Closed keyword items := by
  induction items with
  | nil => intro i hi; cases hi
  | cons i is ih =>
    rw [heads, if_pos rfl, List.length_cons, List.length_cons, Nat.succ_inj] at h
    cases is with
    | nil => intro i hi; cases hi
    | cons j is =>
      have hzero : depthAfter 0 (i.text keyword) = 0 := by
        by_contra hd
        rw [heads, if_neg hd] at h
        have hle := @heads_length_le keyword
          (depthAfter (depthAfter 0 (i.text keyword)) (j.text keyword)) is
        simp only [List.length_cons] at h
        omega
      rw [hzero] at h
      intro x hx
      rw [List.dropLast_cons_of_ne_nil (by simp), List.mem_cons] at hx
      rcases hx with rfl | hx
      · exact hzero
      · exact ih h x hx

/-! ## Columns -/

theorem PlainType.no_colon {typeName : String} (h : PlainType typeName) :
    ':' ∉ typeName.toList := by
  obtain ⟨base, hbase, htype⟩ := h
  have hbaseColon : ':' ∉ base := fun hmem => (typeChar_iff.mp (hbase _ hmem)).2.2.2 rfl
  rcases htype with htype | htype
  · rwa [htype]
  · simp [htype, hbaseColon]

/-- The column of a token that begins with one: its printed name, and what stands after it. -/
theorem columnOf_begun {c : PrintedColumn} {token : List Char} (hplain : PlainItem (.column c))
    (h : Begun keyword (.column c) token) :
    ∃ tail, token = (Item.column c).text keyword ++ tail ∧ Solid (c.datum.literal ++ tail) ∧
      columnOf token = some (String.ofList (quoteIdentifier keyword c.name),
        sanitizeValue (c.datum.literal ++ tail)) := by
  obtain ⟨hsolid, tail, rfl⟩ := h
  obtain ⟨hname, htype⟩ := hplain
  have hnameChars := @PlainName.quoteIdentifier keyword _ hname
  have hbracket : '[' ∉ quoteIdentifier keyword c.name := fun hmem =>
    (plainChar_iff.mp (hnameChars _ hmem)).2.1 rfl
  -- what stands before the colon, and what stands after it
  have hinfo : ':' ∉ quoteIdentifier keyword c.name ++ '[' :: (c.typeName.toList ++ [']']) := by
    intro hmem
    rcases List.mem_append.mp hmem with hmem | hmem
    · exact (plainChar_iff.mp (hnameChars _ hmem)).2.2.2.1 rfl
    · have htypeColon : ':' ∈ c.typeName.toList := by simpa using hmem
      exact htype.no_colon htypeColon
  have hinfoSolid :
      Solid (quoteIdentifier keyword c.name ++ '[' :: (c.typeName.toList ++ [']'])) := by
    have hclose : Solid [']'] := solid_of_any (by decide) rfl
    exact (solid_quoteIdentifier c.name).append hclose ('[' :: c.typeName.toList)
  have hvalueSolid : Solid (c.datum.literal ++ tail) := by
    have hlast := hsolid.2.2
    have hliteral := solid_literal c.datum
    have hne : c.datum.literal ++ tail ≠ [] := by simp [hliteral.1]
    refine ⟨hne, ?_, ?_⟩
    · rw [List.head?_append_of_ne_nil _ hliteral.1]
      exact hliteral.2.1
    · rwa [text_column, List.append_assoc, List.getLast?_append_of_ne_nil _ (by simp),
        List.append_assoc, List.getLast?_append_of_ne_nil _ (by simp), List.cons_append,
        List.getLast?_cons_of_ne_nil hne] at hlast
  have hsplit : Chars.splitOnce ':' ((Item.column c).text keyword ++ tail) =
      some (quoteIdentifier keyword c.name ++ '[' :: (c.typeName.toList ++ [']']),
        c.datum.literal ++ tail) := by
    rw [text_column]
    simpa using Chars.splitOnce_append hinfo (c.datum.literal ++ tail)
  refine ⟨tail, rfl, hvalueSolid, ?_⟩
  rw [columnOf, splitFirstColon, hsplit, Option.map_some, Option.map_some, hinfoSolid.trim,
    hvalueSolid.trim, extractColumnName, hinfoSolid.trim, Chars.trimEndMatches_eq_self hinfo,
    Chars.splitOnce_append hbracket]

end

end TestDecoder

end MeiliBridge
