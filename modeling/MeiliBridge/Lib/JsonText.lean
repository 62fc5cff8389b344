import Mathlib.Data.List.Basic
import Mathlib.Data.List.Infix

/-!
# JSON texts

The syntax of JSON with its layout: `Syn` keeps the blanks and the escapes as they are written, so
that `Syn.bytes` gives back the text and nothing is lost between a text and its tree. What a string
or a number stands for is left open.

A value within a text is followed by blanks and then by a comma, a closing bracket or the end
(`AfterValue`), which is what a search over the bytes can rely on.
-/

set_option autoImplicit false

namespace JsonText

def isBlank (b : UInt8) : Bool := b == 32 || b == 9 || b == 10 || b == 13

abbrev Blanks := { bs : List UInt8 // ∀ b ∈ bs, isBlank b = true }

def noBlanks : Blanks := ⟨[], fun _ h => (List.not_mem_nil h).elim⟩

/-- A byte of a character that stands for itself, or a backslash with the byte after it -/
inductive Item where
  | plain (b : UInt8) (h : b ≠ 34 ∧ b ≠ 92)
  | escape (b : UInt8)

def Item.bytes : Item → List UInt8
  | .plain b _ => [b]
  | .escape b => [92, b]

def itemsBytes (items : List Item) : List UInt8 := items.flatMap Item.bytes

theorem itemsBytes_cons (item : Item) (items : List Item) :
    itemsBytes (item :: items) = item.bytes ++ itemsBytes items := rfl

/-- What stands between the quotes of a string -/
structure Literal where
  items : List Item
  text : String
  valid : text.toUTF8.data.toList = itemsBytes items

/-- A string that is written without escapes -/
def Literal.plain (text : String)
    (h : (text.toUTF8.data.toList.all fun b => b != 34 && b != 92) = true) : Literal where
  items := text.toUTF8.data.toList.attach.map fun b =>
    .plain b.1 (by simpa using List.all_eq_true.mp h b.1 b.2)
  text := text
  valid := by simp [itemsBytes, List.flatMap_map, Item.bytes]

def Literal.bytes (s : Literal) : List UInt8 := 34 :: (itemsBytes s.items ++ [34])

/-- The bytes of numbers and of `true`, `false` and `null` -/
def isWord (b : UInt8) : Bool :=
  let n := b.toNat
  (48 ≤ n && n ≤ 57) || (65 ≤ n && n ≤ 90) || (97 ≤ n && n ≤ 122) || n == 43 || n == 45 || n == 46

structure Word where
  first : UInt8
  rest : List UInt8
  isWord : ∀ b ∈ first :: rest, JsonText.isWord b = true

inductive Container where
  | array
  | object

def Container.opening : Container → UInt8
  | .array => 91
  | .object => 123

def Container.closing : Container → UInt8
  | .array => 93
  | .object => 125

inductive Kind where
  | value
  | entry (c : Container)
  | entries (c : Container)

/-- The entries of an array are its items, those of an object its members. -/
inductive Syn : Kind → Type where
  | word (w : Word) : Syn .value
  | string (s : Literal) : Syn .value
  | empty (c : Container) (ws : Blanks) : Syn .value
  | container {c : Container} (entries : Syn (.entries c)) : Syn .value
  | item (v : Syn .value) : Syn (.entry .array)
  | member (key : Literal) (ws ws' : Blanks) (v : Syn .value) : Syn (.entry .object)
  | last {c : Container} (ws : Blanks) (e : Syn (.entry c)) (ws' : Blanks) : Syn (.entries c)
  | cons {c : Container} (ws : Blanks) (e : Syn (.entry c)) (ws' : Blanks)
      (rest : Syn (.entries c)) : Syn (.entries c)

namespace Syn

def bytes : {k : Kind} → Syn k → List UInt8
  | _, .word w => w.first :: w.rest
  | _, .string s => s.bytes
  | _, .empty c ws => c.opening :: (ws.1 ++ [c.closing])
  | _, .container (c := c) entries => c.opening :: (entries.bytes ++ [c.closing])
  | _, .item v => v.bytes
  | _, .member key ws ws' v => key.bytes ++ (ws.1 ++ 58 :: (ws'.1 ++ v.bytes))
  | _, .last ws e ws' => ws.1 ++ (e.bytes ++ ws'.1)
  | _, .cons ws e ws' rest => ws.1 ++ (e.bytes ++ (ws'.1 ++ 44 :: rest.bytes))

/-- The string that the value is, if it is one -/
def asString : Syn .value → Option Literal
  | .string s => some s
  | _ => none

theorem eq_string {v : Syn .value} {s : Literal} (h : v.asString = some s) : v = .string s := by
  cases v with
  | string s' => exact congrArg _ (Option.some.inj h)
  | word | empty | container => cases h

/-- The members of all objects whose value is a string, in the order of the text -/
def stringMembers : {k : Kind} → Syn k → List (Literal × Literal)
  | _, .word _ => []
  | _, .string _ => []
  | _, .empty _ _ => []
  | _, .container entries => entries.stringMembers
  | _, .item v => v.stringMembers
  | _, .member key _ _ v => v.asString.toList.map (key, ·) ++ v.stringMembers
  | _, .last _ e _ => e.stringMembers
  | _, .cons _ e _ rest => e.stringMembers ++ rest.stringMembers

end Syn

/-! ## No quotes outside of strings -/

theorem blank_ne {b : UInt8} (h : isBlank b = true) : b ≠ 34 := by
  rintro rfl
  cases h

theorem word_ne {b : UInt8} (h : isWord b = true) : b ≠ 34 ∧ b ≠ 92 := by
  constructor
  · rintro rfl
    cases h
  · rintro rfl
    cases h

theorem Container.opening_ne (c : Container) : c.opening ≠ 34 := by
  cases c <;> simp [opening]

theorem Container.closing_ne (c : Container) : c.closing ≠ 34 := by
  cases c <;> simp [closing]

/-! ## What follows a value -/

/-- After blanks comes a comma, a closing bracket or the end. -/
def AfterValue (rest : List UInt8) : Prop :=
  ∀ b ∈ (rest.dropWhile isBlank).head?, b = 44 ∨ b = 93 ∨ b = 125

theorem dropWhile_blanks (ws : Blanks) (rest : List UInt8) :
    (ws.1 ++ rest).dropWhile isBlank = rest.dropWhile isBlank :=
  List.dropWhile_append_of_pos ws.2

theorem AfterValue.nil : AfterValue [] := by simp [AfterValue]

theorem AfterValue.comma (rest : List UInt8) : AfterValue (44 :: rest) := by
  simp [AfterValue, List.dropWhile, isBlank]

theorem AfterValue.closing (c : Container) (rest : List UInt8) :
    AfterValue (c.closing :: rest) := by
  cases c <;> simp [AfterValue, List.dropWhile, isBlank, Container.closing]

theorem AfterValue.blanks {rest : List UInt8} (h : AfterValue rest) (ws : Blanks) :
    AfterValue (ws.1 ++ rest) := by
  rwa [AfterValue, dropWhile_blanks]

theorem AfterValue.head {b : UInt8} {rest : List UInt8} (h : AfterValue (b :: rest)) :
    isBlank b = true ∨ b = 44 ∨ b = 93 ∨ b = 125 := by
  by_cases hb : isBlank b = true
  · exact .inl hb
  · right
    apply h
    rw [List.dropWhile_cons_of_neg hb]
    rfl

theorem AfterValue.not_word {rest : List UInt8} (h : AfterValue rest) :
    ∀ b ∈ rest.head?, isWord b = false := by
  cases rest with
  | nil => simp
  | cons b rest =>
    intro c hc
    obtain rfl : b = c := by simpa using hc
    rcases h.head with hb | rfl | rfl | rfl
    · simp only [isBlank, Bool.or_eq_true, beq_iff_eq] at hb
      obtain ((rfl | rfl) | rfl) | rfl := hb <;> rfl
    all_goals rfl

end JsonText
