import MeiliBridge.Base.Text
import MeiliBridge.Base.Value
import MeiliBridge.Lib.JsonText
import MeiliBridge.Pipeline.MemoryMonitor

/-!
# Streaming documents

`parse_document_stream` reads one document after the other, each through a reader that is limited to
the maximum size. `serde_json` sees the limit as the end of the input, and the iterator takes every
error that mentions `EOF` for the end. `document_stream_iff` says which inputs it reports in full.
-/

set_option autoImplicit false

namespace MeiliBridge

structure StreamingJsonProcessor where
  maxDocumentSize : Nat
  memoryMonitor : Option MemoryMonitor

structure StreamingDocumentIterator where
  reader : List UInt8
  done : Bool

namespace StreamingJsonProcessor

open JsonText (Blanks isBlank dropWhile_blanks noBlanks)

def new (maxDocumentSize : Nat) : StreamingJsonProcessor := ⟨maxDocumentSize, none⟩

mutual

/-- Sizes in bytes -/
def estimateValueSize : Value → Nat
  | .null => 8
  | .bool _ => 8
  | .number _ => 16
  | .string s => 24 + s.utf8ByteSize
  | .array xs => 24 + estimateItems xs
  | .object fields => 24 + estimateFields fields

def estimateItems : List Value → Nat
  | [] => 0
  | x :: xs => estimateValueSize x + estimateItems xs

def estimateFields : List (String × Value) → Nat
  | [] => 0
  | (k, x) :: fs => 24 + k.utf8ByteSize + estimateValueSize x + estimateFields fs

end

/-- `Value::deserialize` on a reader, with the number of bytes that it takes from the reader -/
abbrev Deserialize := List UInt8 → Except String Value × Nat

variable (deserialize : Deserialize) (p : StreamingJsonProcessor)

/-- The counters are those that the monitor has when the document is tracked. -/
def parseDocument (counters : MemoryMonitor.State) (reader : List UInt8) :
    Result Value × List UInt8 :=
  let (parsed, consumed) := deserialize (reader.take p.maxDocumentSize)
  let rest := reader.drop consumed
  match parsed with
  | .error e => (.error (.validation s!"Failed to parse JSON: {e}"), rest)
  | .ok value =>
    match p.memoryMonitor with
    | none => (.ok value, rest)
    | some monitor =>
      let size := UInt64.ofNat (estimateValueSize value)
      ((monitor.track .queue size counters).1.map fun _ => value, rest)

def parseDocumentStream (reader : List UInt8) : StreamingDocumentIterator := ⟨reader, false⟩

/-- `StreamingDocumentIterator::next` -/
def next (counters : MemoryMonitor.State) (it : StreamingDocumentIterator) :
    Option (Result Value) × StreamingDocumentIterator :=
  if it.done then (none, it)
  else
    match p.parseDocument deserialize counters it.reader with
    | (.ok doc, rest) => (some (.ok doc), ⟨rest, false⟩)
    | (.error e, rest) =>
      (if Text.contains e.display "EOF" then none else some (.error e), ⟨rest, true⟩)

/-- What the `n`-th call of `next` gives -/
def answer : (Nat → MemoryMonitor.State) → StreamingDocumentIterator → Nat → Option (Result Value)
  | counters, it, 0 => (p.next deserialize (counters 0) it).1
  | counters, it, n + 1 =>
    answer (fun k => counters (k + 1)) (p.next deserialize (counters 0) it).2 n

/-! ## Inputs -/

/-- A parse that has come to the end of its input -/
def Truncated (r : Except String Value × Nat) : Prop :=
  ∃ e n, r = (.error e, n) ∧ Text.contains e "EOF" = true

/-- What the iterator relies on: an object is read whole and nothing after it, and where the input
stops before the end of one the message says so. -/
structure ReadsObjects (isObject : List UInt8 → Fields → Prop) : Prop where
  whole (ws : Blanks) {text : List UInt8} {fields : Fields} (rest : List UInt8)
    (h : isObject text fields) :
    deserialize (ws.1 ++ text ++ rest) = (.ok (.object fields), (ws.1 ++ text).length)
  cut (ws : Blanks) {text part : List UInt8} {fields : Fields} (h : isObject text fields)
    (hpart : part <+: text) (hne : part ≠ text) : Truncated (deserialize (ws.1 ++ part))
  blank (ws : Blanks) : Truncated (deserialize ws.1)

/-- An object with the whitespace before it -/
structure Document (isObject : List UInt8 → Fields → Prop) where
  lead : Blanks
  text : List UInt8
  fields : Fields
  reads : isObject text fields

variable {isObject : List UInt8 → Fields → Prop}

def Document.print (d : Document isObject) : List UInt8 := d.lead.1 ++ d.text

def printDocuments (docs : List (Document isObject)) : List UInt8 := docs.flatMap Document.print

/-- The documents up to one over the limit are given in order, an error stands for that one, and
`None` comes directly after the documents only at the end. -/
structure Reports (limit : Nat) (docs : List (Document isObject))
    (answers : Nat → Option (Result Value)) : Prop where
  leading (before : List (Document isObject)) (d : Document isObject)
    (after : List (Document isObject)) (hdocs : docs = before ++ d :: after)
    (hbefore : ∀ x ∈ before, x.text.length ≤ limit) (hd : d.text.length ≤ limit) :
    answers before.length = some (.ok (.object d.fields))
  oversized (before : List (Document isObject)) (d : Document isObject)
    (after : List (Document isObject)) (hdocs : docs = before ++ d :: after)
    (hbefore : ∀ x ∈ before, x.text.length ≤ limit) (hd : limit < d.text.length) :
    ∃ e, answers before.length = some (.error e)
  ending (n : Nat) (hend : answers n = none)
    (hgiven : ∀ k < n, ∃ doc, answers k = some (.ok doc)) : n = docs.length

/-! ## One call -/

/-- The document is within the limit together with the whitespace before it. -/
def Fits (limit : Nat) (d : Document isObject) : Prop := d.print.length ≤ limit

theorem contains_append {s pat : String} (h : Text.contains s pat = true) (before : String) :
    Text.contains (before ++ s) pat = true := by
  rw [Text.contains, decide_eq_true_iff] at h ⊢
  rw [String.toList_append]
  exact h.trans (List.suffix_append _ _).isInfix

theorem contains_display {e : String} (h : Text.contains e "EOF" = true) :
    Text.contains (MeiliBridgeError.validation s!"Failed to parse JSON: {e}").display "EOF" =
      true := by
  have hdisplay : (MeiliBridgeError.validation s!"Failed to parse JSON: {e}").display =
      "Validation error: " ++ ("Failed to parse JSON: " ++ e) := rfl
  rw [hdisplay]
  exact contains_append (contains_append h _) _

variable {deserialize : Deserialize} {limit : Nat} (counters : MemoryMonitor.State)

/-- An input that stops before the end of a value ends the stream. -/
theorem next_truncated {reader : List UInt8} (h : Truncated (deserialize (reader.take limit))) :
    ((new limit).next deserialize counters ⟨reader, false⟩).1 = none := by
  obtain ⟨e, n, he, heof⟩ := h
  have hparse : (new limit).parseDocument deserialize counters reader =
      (.error (.validation s!"Failed to parse JSON: {e}"), reader.drop n) := by
    simp [parseDocument, new, he]
  rw [next, hparse]
  simp [contains_display heof]

theorem next_fits (hreads : ReadsObjects deserialize isObject) {d : Document isObject}
    (hfits : Fits limit d) (rest : List UInt8) :
    (new limit).next deserialize counters ⟨d.print ++ rest, false⟩ =
      (some (.ok (.object d.fields)), ⟨rest, false⟩) := by
  have htake : (d.print ++ rest).take limit = d.print ++ rest.take (limit - d.print.length) := by
    rw [List.take_append, List.take_of_length_le hfits]
  have hparse : (new limit).parseDocument deserialize counters (d.print ++ rest) =
      (.ok (.object d.fields), rest) := by
    have hwhole : deserialize (d.print ++ rest.take (limit - d.print.length)) =
        (.ok (.object d.fields), d.print.length) := hreads.whole d.lead _ d.reads
    simp [parseDocument, new, htake, hwhole]
  rw [next, hparse]
  rfl

theorem next_cut (hreads : ReadsObjects deserialize isObject) {d : Document isObject}
    (hfits : ¬ Fits limit d) (rest : List UInt8) :
    ((new limit).next deserialize counters ⟨d.print ++ rest, false⟩).1 = none := by
  have hlong : limit < d.print.length := Nat.lt_of_not_le hfits
  apply next_truncated
  rw [List.take_append_of_le_length (Nat.le_of_lt hlong), Document.print]
  by_cases hlead : limit ≤ d.lead.1.length
  · -- nothing of the object is left
    rw [List.take_append_of_le_length hlead]
    exact hreads.blank ⟨_, fun b hb => d.lead.2 b (List.mem_of_mem_take hb)⟩
  · have hlead : d.lead.1.length ≤ limit := by omega
    rw [List.take_append, List.take_of_length_le hlead]
    refine hreads.cut d.lead d.reads (List.take_prefix _ _) fun h => ?_
    have hlength := congrArg List.length h
    rw [Document.print, List.length_append] at hlong
    rw [List.length_take] at hlength
    omega

theorem next_end (hreads : ReadsObjects deserialize isObject) (trail : Blanks) :
    ((new limit).next deserialize counters ⟨trail.1, false⟩).1 = none := by
  apply next_truncated
  exact hreads.blank ⟨_, fun b hb => trail.2 b (List.mem_of_mem_take hb)⟩

/-! ## The whole stream -/

/-- The documents that fit are given one after the other. -/
theorem answer_documents (hreads : ReadsObjects deserialize isObject) (rest : List UInt8) :
    ∀ (before : List (Document isObject)) (counters : Nat → MemoryMonitor.State),
      (∀ d ∈ before, Fits limit d) →
      (new limit).answer deserialize counters ⟨printDocuments before ++ rest, false⟩ before.length =
          ((new limit).next deserialize (counters before.length) ⟨rest, false⟩).1 ∧
        ∀ k < before.length, ∃ doc, (new limit).answer deserialize counters
          ⟨printDocuments before ++ rest, false⟩ k = some (.ok doc) := by
  intro before
  induction before with
  | nil =>
    intro counters _
    exact ⟨rfl, fun k hk => absurd hk (Nat.not_lt_zero k)⟩
  | cons d before ih =>
    intro counters hfits
    have hnext := next_fits (counters 0) hreads (hfits d List.mem_cons_self)
      (printDocuments before ++ rest)
    have hprint : printDocuments (d :: before) ++ rest =
        d.print ++ (printDocuments before ++ rest) := by
      simp [printDocuments]
    obtain ⟨hrest, hgiven⟩ := ih (fun k => counters (k + 1))
      fun x hx => hfits x (List.mem_cons_of_mem _ hx)
    rw [hprint]
    constructor
    · rw [List.length_cons, answer, hnext]
      exact hrest
    · intro k hk
      cases k with
      | zero => exact ⟨_, congrArg Prod.fst hnext⟩
      | succ k =>
        rw [answer, hnext]
        exact hgiven k (Nat.lt_of_succ_lt_succ hk)

/-- A document that fits, after others that do -/
theorem answer_fits (hreads : ReadsObjects deserialize isObject)
    (before : List (Document isObject)) (d : Document isObject) (rest : List UInt8)
    (counters : Nat → MemoryMonitor.State) (hbefore : ∀ x ∈ before, Fits limit x)
    (hd : Fits limit d) :
    (new limit).answer deserialize counters
      ⟨printDocuments before ++ (d.print ++ rest), false⟩ before.length =
        some (.ok (.object d.fields)) := by
  rw [(answer_documents hreads _ before counters hbefore).1, next_fits _ hreads hd]

/-- The first document that does not fit ends the stream. -/
theorem answer_cut (hreads : ReadsObjects deserialize isObject)
    (before : List (Document isObject)) (d : Document isObject) (rest : List UInt8)
    (counters : Nat → MemoryMonitor.State) (hbefore : ∀ x ∈ before, Fits limit x)
    (hd : ¬ Fits limit d) :
    (new limit).answer deserialize counters
      ⟨printDocuments before ++ (d.print ++ rest), false⟩ before.length = none := by
  rw [(answer_documents hreads _ before counters hbefore).1, next_cut _ hreads hd]

theorem exists_first_unfit {docs : List (Document isObject)} (h : ¬ ∀ d ∈ docs, Fits limit d) :
    ∃ before d after, docs = before ++ d :: after ∧ (∀ x ∈ before, Fits limit x) ∧
      ¬ Fits limit d := by
  induction docs with
  | nil => exact (h fun _ hd => (List.not_mem_nil hd).elim).elim
  | cons d docs ih =>
    by_cases hd : Fits limit d
    · have hrest : ¬ ∀ x ∈ docs, Fits limit x := by
        intro hall
        apply h
        intro x hx
        rcases List.mem_cons.mp hx with hx | hx
        · exact hx ▸ hd
        · exact hall x hx
      obtain ⟨before, x, after, hdocs, hbefore, hx⟩ := ih hrest
      refine ⟨d :: before, x, after, congrArg (d :: ·) hdocs, ?_, hx⟩
      intro y hy
      rcases List.mem_cons.mp hy with hy | hy
      · exact hy ▸ hd
      · exact hbefore y hy
    · exact ⟨[], d, docs, rfl, fun _ hx => (List.not_mem_nil hx).elim, hd⟩

theorem text_length_le {d : Document isObject} (h : Fits limit d) : d.text.length ≤ limit := by
  rw [Fits, Document.print, List.length_append] at h
  omega

theorem printDocuments_split {docs before after : List (Document isObject)} {d : Document isObject}
    (h : docs = before ++ d :: after) (trail : Blanks) : printDocuments docs ++ trail.1 =
      printDocuments before ++ (d.print ++ (printDocuments after ++ trail.1)) := by
  rw [h]
  simp [printDocuments]

/-- For every limit and every input of objects with whitespace around them, what cannot be read is
reported if and only if each object is within the limit together with the whitespace before it. -/
theorem document_stream_iff (hreads : ReadsObjects deserialize isObject) (limit : Nat)
    (docs : List (Document isObject)) (trail : Blanks) (counters : Nat → MemoryMonitor.State) :
    Reports limit docs ((new limit).answer deserialize counters
        (parseDocumentStream (printDocuments docs ++ trail.1))) ↔
      ∀ d ∈ docs, Fits limit d := by
  rw [parseDocumentStream]
  constructor
  · intro h
    by_contra hunfit
    -- the first document that does not fit is taken for the end of the input
    obtain ⟨before, d, after, hdocs, hbefore, hd⟩ := exists_first_unfit hunfit
    have hnone := answer_cut hreads before d (printDocuments after ++ trail.1) counters hbefore hd
    rw [← printDocuments_split hdocs] at hnone
    have htexts : ∀ x ∈ before, x.text.length ≤ limit := fun x hx => text_length_le (hbefore x hx)
    rcases Nat.lt_or_ge limit d.text.length with hlong | hshort
    · obtain ⟨e, he⟩ := h.oversized before d after hdocs htexts hlong
      rw [hnone] at he
      cases he
    · have hgiven := h.leading before d after hdocs htexts hshort
      rw [hnone] at hgiven
      cases hgiven
  · intro hfits
    obtain ⟨hend, hgiven⟩ := answer_documents hreads trail.1 docs counters hfits
    rw [next_end _ hreads] at hend
    constructor
    · intro before d after hdocs _ _
      rw [printDocuments_split hdocs]
      apply answer_fits hreads
      · exact fun x hx => hfits x (by simp [hdocs, hx])
      · exact hfits d (by simp [hdocs])
    · intro before d after hdocs _ hd
      have hshort : d.text.length ≤ limit := text_length_le (hfits d (by simp [hdocs]))
      exact absurd hshort (Nat.not_le_of_lt hd)
    · intro n hn hbefore
      rcases Nat.lt_trichotomy n docs.length with hlt | heq | hgt
      · obtain ⟨doc, hdoc⟩ := hgiven n hlt
        rw [hn] at hdoc
        cases hdoc
      · exact heq
      · obtain ⟨doc, hdoc⟩ := hbefore _ hgt
        rw [hend] at hdoc
        cases hdoc

/-! ## A reader of empty objects -/

/-- An object without members, with whitespace in it -/
def IsEmptyObject (text : List UInt8) (fields : Fields) : Prop :=
  ∃ ws : Blanks, text = 123 :: (ws.1 ++ [125]) ∧ fields = []

def readEmptyObject (input : List UInt8) : Except String Value × Nat :=
  let afterBlanks := input.dropWhile isBlank
  if afterBlanks.head? = some 123 then
    let inner := (afterBlanks.drop 1).dropWhile isBlank
    if inner.head? = some 125 then (.ok (.object []), input.length - (inner.drop 1).length)
    else if inner = [] then (.error "EOF while parsing an object", input.length)
    else (.error "key must be a string", input.length)
  else if afterBlanks = [] then (.error "EOF while parsing a value", input.length)
  else (.error "expected value", input.length)

theorem readEmptyObject_open (ws inner : Blanks) (rest : List UInt8) :
    (ws.1 ++ 123 :: (inner.1 ++ rest)).dropWhile isBlank = 123 :: (inner.1 ++ rest) ∧
      (inner.1 ++ rest).dropWhile isBlank = rest.dropWhile isBlank := by
  constructor
  · rw [dropWhile_blanks]
    rfl
  · exact dropWhile_blanks inner rest

theorem readEmptyObject_blank (ws : Blanks) : Truncated (readEmptyObject ws.1) := by
  have hdrop : ws.1.dropWhile isBlank = [] := by
    have h := dropWhile_blanks ws []
    rwa [List.append_nil] at h
  refine ⟨"EOF while parsing a value", ws.1.length, ?_, by decide⟩
  rw [readEmptyObject, hdrop]
  rfl

theorem readEmptyObject_reads : ReadsObjects readEmptyObject IsEmptyObject where
  whole := by
    intro ws text fields rest h
    obtain ⟨inner, rfl, rfl⟩ := h
    obtain ⟨hopen, hinner⟩ := readEmptyObject_open ws inner (125 :: rest)
    have hclose : (125 :: rest).dropWhile isBlank = 125 :: rest := rfl
    have hinput : ws.1 ++ 123 :: (inner.1 ++ [125]) ++ rest =
        ws.1 ++ 123 :: (inner.1 ++ 125 :: rest) := by
      simp
    rw [hinput, readEmptyObject]
    simp only [hopen, List.head?_cons, if_true, List.drop_one, List.tail_cons, hinner, hclose]
    simp
    omega
  cut := by
    intro ws text part fields h hpart hne
    obtain ⟨inner, rfl, rfl⟩ := h
    cases part with
    | nil =>
      rw [List.append_nil]
      exact readEmptyObject_blank ws
    | cons b part =>
      obtain ⟨rfl, hrest⟩ := List.cons_prefix_cons.mp hpart
      rcases List.prefix_concat_iff.mp hrest with hall | hblank
      · exact absurd (congrArg (123 :: ·) hall) hne
      · obtain ⟨hopen, hinner⟩ := readEmptyObject_open ws
          ⟨part, fun b hb => inner.2 b (hblank.subset hb)⟩ []
        refine ⟨"EOF while parsing an object", (ws.1 ++ 123 :: part).length, ?_, by decide⟩
        simp only [List.append_nil] at hopen hinner
        simp [readEmptyObject, hopen, hinner]
  blank := readEmptyObject_blank

def emptyObject (lead inner : Blanks) : Document IsEmptyObject :=
  ⟨lead, 123 :: (inner.1 ++ [125]), [], ⟨inner, rfl, rfl⟩⟩

def threeBlanks : Blanks := ⟨[32, 32, 32], by simp [isBlank]⟩

def noCounters : Nat → MemoryMonitor.State := fun _ => .start

theorem document_stream_iff_withinLimit :
    Reports 5 [emptyObject noBlanks noBlanks, emptyObject threeBlanks noBlanks]
      ((new 5).answer readEmptyObject noCounters (parseDocumentStream (printDocuments
        [emptyObject noBlanks noBlanks, emptyObject threeBlanks noBlanks] ++ threeBlanks.1))) := by
  refine (document_stream_iff readEmptyObject_reads 5 _ _ _).mpr ?_
  simp [Fits, Document.print, emptyObject, noBlanks, threeBlanks]

/-- The second of the three objects is one byte over the limit. The stream ends after the first, as
if it were the only one. -/
theorem oversized_ends_stream :
    (emptyObject noBlanks threeBlanks).text.length = 5 ∧
      (new 4).answer readEmptyObject noCounters (parseDocumentStream (printDocuments
        [emptyObject noBlanks noBlanks, emptyObject noBlanks threeBlanks,
          emptyObject noBlanks noBlanks])) 0 = some (.ok (.object [])) ∧
      (new 4).answer readEmptyObject noCounters (parseDocumentStream (printDocuments
        [emptyObject noBlanks noBlanks, emptyObject noBlanks threeBlanks,
          emptyObject noBlanks noBlanks])) 1 = none := by
  exact ⟨rfl, rfl, rfl⟩

end StreamingJsonProcessor

end MeiliBridge
