import MeiliBridge.Lib.JsonText

/-!
# The search for a key

`find_json_string_value` looks for the bytes of a quoted key, wherever they stand, and takes the
string after them. It knows neither strings nor nesting. `found_bytes` says which member of a JSON
text it comes upon.
-/

set_option autoImplicit false

namespace MeiliBridge

namespace KeySearch

/-- `u8::is_ascii_whitespace` -/
def isAsciiWhitespace (b : UInt8) : Bool := b == 32 || b == 9 || b == 10 || b == 12 || b == 13

def isSeparator (b : UInt8) : Bool := isAsciiWhitespace b || b == 58

/-- The loop over whitespace and colons -/
def skipSeparators (data : List UInt8) (i : Nat) : Nat :=
  if h : i < data.length then
    if isSeparator data[i] then skipSeparators data (i + 1) else i
  else i
termination_by data.length - i

/-- The loop to the closing quote -/
def closingQuote (data : List UInt8) (i : Nat) : Option Nat :=
  if h : i < data.length then
    if data[i] = 92 then closingQuote data (i + 2)
    else if data[i] = 34 then some i
    else closingQuote data (i + 1)
  else none
termination_by data.length - i

theorem le_skipSeparators (data : List UInt8) (i : Nat) : i ≤ skipSeparators data i := by
  fun_induction skipSeparators data i with
  | case1 i h hsep ih => exact Nat.le_trans (Nat.le_succ i) ih
  | case2 i h hsep => exact Nat.le_refl i
  | case3 i h => exact Nat.le_refl i

/-- A string that is not closed takes the search to the end of the data. -/
def findFrom (data key : List UInt8) (i : Nat) : Option (Nat × Nat) :=
  if h : i < data.length then
    if key.isPrefixOf (data.drop i) then
      let j := skipSeparators data (i + key.length)
      if data[j]? = some 34 then (closingQuote data (j + 1)).map (j + 1, ·)
      else findFrom data key (j + 1)
    else findFrom data key (i + 1)
  else none
termination_by data.length - i
decreasing_by
  · have hj := le_skipSeparators data (i + key.length)
    omega
  · omega

def findJsonStringValue (data key : List UInt8) : Option (Nat × Nat) := findFrom data key 0

/-! ## The search on what is left of the data -/

/-- The bytes up to the closing quote -/
def content : List UInt8 → Option (List UInt8)
  | [] => none
  | [b] => if b = 34 then some [] else none
  | b :: c :: rest =>
    if b = 92 then (content rest).map (b :: c :: ·)
    else if b = 34 then some []
    else (content (c :: rest)).map (b :: ·)

/-- The string that the search finds -/
def found (key : List UInt8) : List UInt8 → Option (List UInt8)
  | [] => none
  | b :: rest =>
    if key.isPrefixOf (b :: rest) then
      let after := ((b :: rest).drop key.length).dropWhile isSeparator
      if after.head? = some 34 then content after.tail else found key after.tail
    else found key rest
termination_by data => data.length
decreasing_by
  · have hdrop := (List.dropWhile_suffix (l := (b :: rest).drop key.length) isSeparator).length_le
    simp only [List.length_drop, List.length_cons, List.length_tail] at hdrop ⊢
    omega
  · simp

theorem drop_skipSeparators (data : List UInt8) (i : Nat) :
    data.drop (skipSeparators data i) = (data.drop i).dropWhile isSeparator := by
  fun_induction skipSeparators data i with
  | case1 i h hsep ih =>
    rw [ih, List.drop_eq_getElem_cons h, List.dropWhile_cons_of_pos hsep]
  | case2 i h hsep =>
    rw [List.drop_eq_getElem_cons h, List.dropWhile_cons_of_neg hsep]
  | case3 i h =>
    rw [List.drop_eq_nil_of_le (Nat.le_of_not_lt h)]
    rfl

/-- The offset that the loop comes to is that of the quote after the content. -/
theorem closingQuote_eq (data : List UInt8) (i : Nat) :
    closingQuote data i = (content (data.drop i)).map (i + ·.length) := by
  fun_induction closingQuote data i with
  | case1 i h hescape ih =>
    rw [ih, List.drop_eq_getElem_cons h, hescape]
    by_cases hnext : i + 1 < data.length
    · rw [List.drop_eq_getElem_cons hnext, content]
      simp only [if_true, Option.map_map]
      congr 1
      funext s
      simp
      omega
    · rw [List.drop_eq_nil_of_le (by omega), List.drop_eq_nil_of_le (by omega)]
      rfl
  | case2 i h hescape hquote =>
    rw [List.drop_eq_getElem_cons h, hquote]
    cases data.drop (i + 1) <;> simp [content]
  | case3 i h hescape hquote ih =>
    rw [ih, List.drop_eq_getElem_cons h]
    cases hrest : data.drop (i + 1) with
    | nil => simp [content, hquote]
    | cons c rest =>
      rw [content, if_neg hescape, if_neg hquote, Option.map_map]
      congr 1
      funext s
      simp
      omega
  | case4 i h =>
    rw [List.drop_eq_nil_of_le (Nat.le_of_not_lt h)]
    rfl

theorem content_prefix (data : List UInt8) : ∀ s ∈ content data, s <+: data := by
  fun_induction content data with
  | case1 => simp
  | case2 => simp
  | case3 b hquote => simp
  | case4 c rest ih =>
    intro s hs
    obtain ⟨t, ht, rfl⟩ := Option.map_eq_some_iff.mp hs
    simpa using ih t ht
  | case5 => simp
  | case6 b c rest hescape hquote ih =>
    intro s hs
    obtain ⟨t, ht, rfl⟩ := Option.map_eq_some_iff.mp hs
    simpa using ih t ht

def slice (data : List UInt8) (r : Nat × Nat) : List UInt8 := (data.take r.2).drop r.1

theorem slice_content {data s : List UInt8} {i : Nat} (h : content (data.drop i) = some s) :
    slice data (i, i + s.length) = s := by
  have hpre := content_prefix _ s h
  rw [slice, List.drop_take, Nat.add_sub_cancel_left]
  exact (List.prefix_iff_eq_take.mp hpre).symm

/-- The offsets that the search gives are those of the string that it finds. -/
theorem findFrom_slice (data key : List UInt8) (i : Nat) :
    (findFrom data key i).map (slice data) = found key (data.drop i) := by
  fun_induction findFrom data key i with
  | case1 i h hkey j hquote =>
    have hafter : (data.drop (i + key.length)).dropWhile isSeparator = data.drop j :=
      (drop_skipSeparators data _).symm
    have hhead : (data.drop j).head? = some 34 := by rw [List.head?_drop, hquote]
    rw [closingQuote_eq, List.drop_eq_getElem_cons h, found, ← List.drop_eq_getElem_cons h,
      if_pos hkey, List.drop_drop]
    simp only [hafter, hhead, if_true, List.tail_drop, Option.map_map]
    cases hcontent : content (data.drop (j + 1)) with
    | none => rfl
    | some s => exact congrArg some (slice_content hcontent)
  | case2 i h hkey j hquote ih =>
    have hafter : (data.drop (i + key.length)).dropWhile isSeparator = data.drop j :=
      (drop_skipSeparators data _).symm
    have hhead : (data.drop j).head? ≠ some 34 := by rwa [List.head?_drop]
    rw [ih, List.drop_eq_getElem_cons h, found, ← List.drop_eq_getElem_cons h, if_pos hkey,
      List.drop_drop]
    simp only [hafter, hhead, if_false, List.tail_drop]
  | case3 i h hkey ih =>
    rw [ih, List.drop_eq_getElem_cons h, found, ← List.drop_eq_getElem_cons h, if_neg hkey]
  | case4 i h =>
    rw [List.drop_eq_nil_of_le (Nat.le_of_not_lt h)]
    simp [found]

/-! ## The search in a JSON text -/

section
open JsonText

/-- The bytes of the key with its quotes -/
def quoted (name : List UInt8) : List UInt8 := 34 :: (name ++ [34])

/-- The text of the string is the name, or ends in an escaped quote and the name. -/
def EndsIn (name : List UInt8) (s : Literal) : Prop := 34 :: name <:+ 34 :: itemsBytes s.items

instance (name : List UInt8) (s : Literal) : Decidable (EndsIn name s) :=
  inferInstanceAs (Decidable (_ <:+ _))

/-- What the search does after the key -/
def afterKey (key rest : List UInt8) : Option (List UInt8) :=
  if (rest.dropWhile isSeparator).head? = some 34 then
    content (rest.dropWhile isSeparator).tail
  else found key (rest.dropWhile isSeparator).tail

theorem content_items (rest : List UInt8) (items : List Item) :
    content (itemsBytes items ++ 34 :: rest) = some (itemsBytes items) := by
  induction items with
  | nil => cases rest <;> simp [itemsBytes, content]
  | cons item items ih =>
    rw [itemsBytes_cons, List.append_assoc]
    cases item with
    | plain b h =>
      obtain ⟨c, tail, htail⟩ : ∃ c tail, itemsBytes items ++ 34 :: rest = c :: tail :=
        List.exists_cons_of_ne_nil (by simp)
      rw [htail] at ih ⊢
      simp [Item.bytes, content, h.1, h.2, ih]
    | escape b => simp [Item.bytes, content, ih]

variable {name : List UInt8}

theorem found_cons {b : UInt8} (hb : b ≠ 34) (rest : List UInt8) :
    found (quoted name) (b :: rest) = found (quoted name) rest := by
  rw [found]
  simp [quoted, Ne.symm hb]

theorem found_append {bs : List UInt8} (hbs : ∀ b ∈ bs, b ≠ 34) (rest : List UInt8) :
    found (quoted name) (bs ++ rest) = found (quoted name) rest := by
  induction bs with
  | nil => rfl
  | cons b bs ih =>
    rw [List.cons_append, found_cons (hbs b List.mem_cons_self)]
    exact ih fun c hc => hbs c (List.mem_cons_of_mem _ hc)

theorem found_blanks (ws : Blanks) (rest : List UInt8) :
    found (quoted name) (ws.1 ++ rest) = found (quoted name) rest :=
  found_append (fun b hb => blank_ne (ws.2 b hb)) rest

theorem key_match (rest : List UInt8) : ∀ {name : List UInt8} (items : List Item),
    (∀ b ∈ name, isWord b = true) →
      (name ++ [34] <+: itemsBytes items ++ 34 :: rest ↔ itemsBytes items = name) := by
  intro name items
  induction items generalizing name with
  | nil =>
    intro hname
    cases name with
    | nil => simp [itemsBytes]
    | cons c name =>
      have hc := (word_ne (hname c List.mem_cons_self)).1
      simp [itemsBytes, hc]
  | cons item items ih =>
    intro hname
    rw [itemsBytes_cons, List.append_assoc]
    cases item with
    | plain b h =>
      cases name with
      | nil => simp [Item.bytes, Ne.symm h.1]
      | cons c name =>
        have hrest := ih fun b hb => hname b (List.mem_cons_of_mem _ hb)
        simp only [Item.bytes, List.cons_append, List.nil_append, List.cons_prefix_cons, hrest,
          List.cons.injEq]
        exact and_congr_left fun _ => eq_comm
    | escape b =>
      cases name with
      | nil => simp [Item.bytes]
      | cons c name =>
        have hc := (word_ne (hname c List.mem_cons_self)).2
        simp [Item.bytes, hc, Ne.symm hc]

/-- At a quote before the rest of a string -/
theorem found_quote (hname : ∀ b ∈ name, isWord b = true) (items : List Item) (rest : List UInt8) :
    found (quoted name) (34 :: (itemsBytes items ++ 34 :: rest)) =
      if itemsBytes items = name then afterKey (quoted name) rest
      else found (quoted name) (itemsBytes items ++ 34 :: rest) := by
  have hkey : (quoted name).isPrefixOf (34 :: (itemsBytes items ++ 34 :: rest)) = true ↔
      itemsBytes items = name := by
    rw [List.isPrefixOf_iff_prefix, quoted, List.cons_prefix_cons, key_match rest items hname]
    simp
  rw [found]
  by_cases hitems : itemsBytes items = name
  · have hrest : (34 :: (itemsBytes items ++ 34 :: rest)).drop (quoted name).length = rest := by
      simp [quoted, hitems]
    rw [if_pos (hkey.mpr hitems), if_pos hitems, hrest]
    rfl
  · rw [if_neg (mt hkey.mp hitems), if_neg hitems]

/-- From the inside of a string to its end. The quotes in it stand behind a backslash. -/
theorem found_items (hname : ∀ b ∈ name, isWord b = true) (hne : name ≠ []) {rest : List UInt8}
    (hrest : ∀ b ∈ rest.head?, isWord b = false) : ∀ items : List Item,
      found (quoted name) (itemsBytes items ++ 34 :: rest) =
        if 34 :: name <:+ itemsBytes items then afterKey (quoted name) rest
        else found (quoted name) rest := by
  intro items
  induction items with
  | nil =>
    obtain ⟨c, tail, rfl⟩ := List.exists_cons_of_ne_nil hne
    have hkey : ¬ (quoted (c :: tail)).isPrefixOf (34 :: rest) = true := by
      rw [List.isPrefixOf_iff_prefix, quoted, List.cons_append, List.cons_prefix_cons]
      intro h
      cases rest with
      | nil => simp at h
      | cons b rest =>
        have hword := hname c List.mem_cons_self
        rw [(List.cons_prefix_cons.mp h.2).1, hrest b rfl] at hword
        cases hword
    rw [itemsBytes, List.flatMap_nil, List.nil_append, found, if_neg hkey]
    simp
  | cons item items ih =>
    rw [itemsBytes_cons, List.append_assoc]
    cases item with
    | plain b h =>
      simp only [Item.bytes, List.cons_append, List.nil_append]
      rw [found_cons h.1, ih]
      simp [List.suffix_cons_iff, Ne.symm h.1]
    | escape b =>
      simp only [Item.bytes, List.cons_append, List.nil_append]
      rw [found_cons (by decide)]
      by_cases hb : b = 34
      · -- an escaped quote looks like the beginning of the key
        subst hb
        rw [found_quote hname, ih]
        by_cases hitems : itemsBytes items = name
        · have hends : 34 :: name <:+ 92 :: 34 :: itemsBytes items := by
            rw [hitems]
            exact List.suffix_cons 92 _
          rw [if_pos hitems]
          exact (if_pos hends).symm
        · simp [List.suffix_cons_iff, hitems, Ne.symm hitems]
      · rw [found_cons hb, ih]
        simp [List.suffix_cons_iff, Ne.symm hb]

theorem found_literal (hname : ∀ b ∈ name, isWord b = true) (hne : name ≠ []) {rest : List UInt8}
    (hrest : ∀ b ∈ rest.head?, isWord b = false) (s : Literal) :
    found (quoted name) (s.bytes ++ rest) =
      if EndsIn name s then afterKey (quoted name) rest else found (quoted name) rest := by
  have hbytes : s.bytes ++ rest = 34 :: (itemsBytes s.items ++ 34 :: rest) := by
    simp [Literal.bytes]
  rw [hbytes, found_quote hname, found_items hname hne hrest]
  by_cases hitems : itemsBytes s.items = name
  · simp [EndsIn, hitems]
  · simp [EndsIn, List.suffix_cons_iff, hitems, Ne.symm hitems]

theorem blank_isAsciiWhitespace {b : UInt8} (h : isBlank b = true) :
    isAsciiWhitespace b = true := by
  simp only [isBlank, isAsciiWhitespace, Bool.or_eq_true] at h ⊢
  tauto

theorem blank_isSeparator {b : UInt8} (h : isBlank b = true) : isSeparator b = true := by
  rw [isSeparator, blank_isAsciiWhitespace h, Bool.true_or]

theorem separator_ne {b : UInt8} (h : isSeparator b = true) : b ≠ 34 := by
  rintro rfl
  cases h

/-- Where no string follows, nothing is taken. -/
theorem afterKey_eq {rest : List UInt8} (h : (rest.dropWhile isSeparator).head? ≠ some 34) :
    afterKey (quoted name) rest = found (quoted name) (rest.dropWhile isSeparator) := by
  rw [afterKey, if_neg h]
  cases hdrop : rest.dropWhile isSeparator with
  | nil => rfl
  | cons b tail =>
    rw [List.tail_cons, found_cons]
    intro hb
    simp [hdrop, hb] at h

theorem found_separators (rest : List UInt8) :
    found (quoted name) (rest.dropWhile isSeparator) = found (quoted name) rest := by
  induction rest with
  | nil => rfl
  | cons b rest ih =>
    by_cases hb : isSeparator b = true
    · rw [List.dropWhile_cons_of_pos hb, ih, found_cons (separator_ne hb)]
    · rw [List.dropWhile_cons_of_neg hb]

theorem afterKey_of_ends {rest : List UInt8} (h : AfterValue rest) :
    afterKey (quoted name) rest = found (quoted name) rest := by
  rw [afterKey_eq, found_separators]
  induction rest with
  | nil => simp
  | cons b rest ih =>
    rcases h.head with hb | hb
    · rw [List.dropWhile_cons_of_pos (blank_isSeparator hb)]
      apply ih
      simpa [AfterValue, List.dropWhile_cons_of_pos hb] using h
    · obtain rfl | rfl | rfl := hb <;> simp [List.dropWhile, isSeparator, isAsciiWhitespace]

theorem word_not_separator {b : UInt8} (h : isWord b = true) : isSeparator b = false := by
  cases hb : isSeparator b with
  | false => rfl
  | true =>
    simp only [isSeparator, isAsciiWhitespace, Bool.or_eq_true, beq_iff_eq] at hb
    obtain ((((rfl | rfl) | rfl) | rfl) | rfl) | rfl := hb <;> cases h

/-- What a value begins with -/
theorem value_head (v : Syn .value) (rest : List UInt8) :
    ∃ b tail, v.bytes ++ rest = b :: tail ∧ isSeparator b = false ∧
      (v.asString = none → b ≠ 34) := by
  cases v with
  | word w =>
    have hfirst : isWord w.first = true := w.isWord _ List.mem_cons_self
    exact ⟨w.first, w.rest ++ rest, rfl, word_not_separator hfirst, fun _ => (word_ne hfirst).1⟩
  | string s => exact ⟨34, _, rfl, rfl, fun h => by cases h⟩
  | empty c ws =>
    refine ⟨c.opening, _, rfl, ?_, fun _ => c.opening_ne⟩
    cases c <;> rfl
  | @container c entries =>
    refine ⟨c.opening, _, rfl, ?_, fun _ => c.opening_ne⟩
    cases c <;> rfl

/-- From the key of a member to its value -/
theorem dropWhile_member (ws ws' : Blanks) (v : Syn .value) (rest : List UInt8) :
    (ws.1 ++ 58 :: (ws'.1 ++ (v.bytes ++ rest))).dropWhile isSeparator = v.bytes ++ rest := by
  have hblanks : ∀ (ws : Blanks) (rest : List UInt8),
      (ws.1 ++ rest).dropWhile isSeparator = rest.dropWhile isSeparator := by
    intro ws rest
    rw [List.dropWhile_append_of_pos fun b hb => blank_isSeparator (ws.2 b hb)]
  obtain ⟨b, tail, hbytes, hb, -⟩ := value_head v rest
  rw [hblanks, List.dropWhile_cons_of_pos rfl, hblanks, hbytes, List.dropWhile_cons_of_neg]
  simp [hb]

theorem member_not_word (ws : Blanks) (rest : List UInt8) :
    ∀ b ∈ (ws.1 ++ 58 :: rest).head?, isWord b = false := by
  obtain ⟨bs, hbs⟩ := ws
  intro b hb
  cases hw : isWord b with
  | false => rfl
  | true =>
    have hsep := word_not_separator hw
    cases bs with
    | nil =>
      obtain rfl : 58 = b := by simpa using hb
      cases hw
    | cons c bs =>
      obtain rfl : c = b := by simpa using hb
      rw [blank_isSeparator (hbs c List.mem_cons_self)] at hsep
      cases hsep

/-- The string member that the search comes upon: the first in the text whose key ends in the
name, at any depth -/
def firstNamed (name : List UInt8) (ms : List (Literal × Literal)) : Option (List UInt8) :=
  (ms.find? fun m => EndsIn name m.1).map fun m => itemsBytes m.2.items

theorem firstNamed_append (ms ms' : List (Literal × Literal)) :
    firstNamed name (ms ++ ms') = (firstNamed name ms).or (firstNamed name ms') := by
  rw [firstNamed, List.find?_append, Option.map_or]
  rfl

/-- A member with its key: the search takes its value, or goes on in it. -/
theorem found_member (hname : ∀ b ∈ name, isWord b = true) (hne : name ≠ []) (key : Literal)
    (ws ws' : Blanks) (v : Syn .value) (rest : List UInt8)
    (hv : found (quoted name) (v.bytes ++ rest) =
      (firstNamed name v.stringMembers).or (found (quoted name) rest)) :
    found (quoted name) ((Syn.member key ws ws' v).bytes ++ rest) =
      (firstNamed name (Syn.member key ws ws' v).stringMembers).or (found (quoted name) rest) := by
  have hprint : (Syn.member key ws ws' v).bytes ++ rest =
      key.bytes ++ (ws.1 ++ 58 :: (ws'.1 ++ (v.bytes ++ rest))) := by
    simp [Syn.bytes]
  have hdrop := dropWhile_member ws ws' v rest
  rw [hprint, found_literal hname hne (member_not_word ws _), Syn.stringMembers, firstNamed_append,
    Option.or_assoc, ← hv]
  cases hstring : v.asString with
  | none =>
    obtain ⟨b, tail, hbytes, -, hb⟩ := value_head v rest
    have hhead : (v.bytes ++ rest).head? ≠ some 34 := by
      rw [hbytes]
      simpa using hb hstring
    rw [afterKey_eq (hdrop.symm ▸ hhead), ← found_separators (ws.1 ++ _), hdrop, ite_self]
    rfl
  | some s =>
    obtain rfl := Syn.eq_string hstring
    by_cases hkey : EndsIn name key
    · have hvalue : (Syn.string s).bytes ++ rest = 34 :: (itemsBytes s.items ++ 34 :: rest) := by
        simp [Syn.bytes, Literal.bytes]
      rw [if_pos hkey, afterKey, hdrop, hvalue, if_pos List.head?_cons, List.tail_cons,
        content_items]
      simp [firstNamed, hkey]
    · rw [if_neg hkey, ← found_separators (ws.1 ++ _), hdrop]
      simp [firstNamed, hkey]

/-- For every piece of a JSON text -/
theorem found_bytes (hname : ∀ b ∈ name, isWord b = true) (hne : name ≠ []) {k : Kind}
    (t : Syn k) : ∀ rest : List UInt8, AfterValue rest →
      found (quoted name) (t.bytes ++ rest) =
        (firstNamed name t.stringMembers).or (found (quoted name) rest) := by
  induction t with
  | word w =>
    intro rest _
    exact found_append (fun b hb => (word_ne (w.isWord b hb)).1) rest
  -- a text value is read like a key, but no colon follows it
  | string s =>
    intro rest hrest
    rw [Syn.bytes, found_literal hname hne hrest.not_word, afterKey_of_ends hrest, ite_self]
    rfl
  | empty c ws =>
    intro rest _
    rw [Syn.bytes, List.cons_append, found_cons c.opening_ne, List.append_assoc, found_blanks,
      List.singleton_append, found_cons c.closing_ne]
    rfl
  | @container c entries ih =>
    intro rest _
    rw [Syn.bytes, List.cons_append, found_cons c.opening_ne, List.append_assoc,
      List.singleton_append, ih _ (AfterValue.closing c rest), found_cons c.closing_ne]
    rfl
  | item v ih =>
    intro rest hrest
    exact ih rest hrest
  -- the only place where the name can be found
  | member key ws ws' v ih =>
    intro rest hrest
    exact found_member hname hne key ws ws' v rest (ih rest hrest)
  | last ws e ws' ih =>
    intro rest hrest
    rw [Syn.bytes, List.append_assoc, List.append_assoc, found_blanks, ih _ (hrest.blanks ws'),
      found_blanks]
    rfl
  | cons ws e ws' es ihe ihes =>
    intro rest hrest
    rw [Syn.bytes, List.append_assoc, List.append_assoc, List.append_assoc, List.cons_append,
      found_blanks, ihe _ ((AfterValue.comma _).blanks ws'), found_blanks, found_cons (by decide),
      ihes rest hrest, Syn.stringMembers, firstNamed_append, Option.or_assoc]

end

end KeySearch

end MeiliBridge
