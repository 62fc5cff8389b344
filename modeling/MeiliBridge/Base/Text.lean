import Mathlib.Algebra.Group.Nat.Defs
import Mathlib.Data.List.Infix

/-!
# The string operations of the standard library that the code uses

Each one follows its documentation on Unicode text. The case tables are the exception: they are
data of the Unicode standard, so `to_lowercase` and `to_uppercase` are fields of `Runtime`, beside
the clock reading that `AddTimestamp` writes. Everything proved over a `Runtime` holds for the real
tables and for every reading of the clock.
-/

set_option autoImplicit false

namespace MeiliBridge

/-- What the standard library's tables and the clock supply to a pipeline stage. -/
structure Runtime where
  toLowercase : String → String
  toUppercase : String → String
  /-- `chrono::Utc::now().to_rfc3339()` -/
  utcNow : String

namespace Text

/-- The code points with Unicode's `White_Space` property. -/
def isWhitespace (c : Char) : Bool :=
  let n := c.toNat
  (9 ≤ n && n ≤ 13) || n == 0x20 || n == 0x85 || n == 0xA0 || n == 0x1680 ||
    (0x2000 ≤ n && n ≤ 0x200A) || n == 0x2028 || n == 0x2029 || n == 0x202F || n == 0x205F ||
    n == 0x3000

/-- Drop from both ends the characters that satisfy `p`. -/
def trimWhile (p : Char → Bool) (s : String) : String :=
  String.ofList ((s.toList.dropWhile p).reverse.dropWhile p).reverse

/-- `str::trim` -/
def trim (s : String) : String := trimWhile isWhitespace s

/-- `str::trim_matches` with one character -/
def trimMatches (c : Char) (s : String) : String := trimWhile (· == c) s

/-- `str::split` with one character: always at least one part -/
def split (sep : Char) (s : String) : List String :=
  (s.toList.splitOn sep).map String.ofList

/-- `str::split_once` with one character -/
def splitOnce (sep : Char) (s : String) : Option (String × String) :=
  let cs := s.toList
  if sep ∈ cs then
    some (String.ofList (cs.takeWhile (· != sep)),
      String.ofList ((cs.dropWhile (· != sep)).drop 1))
  else none

theorem not_mem_of_mem_splitOnP {p : Char → Bool} {cs part : List Char}
    (h : part ∈ cs.splitOnP p) : ∀ c ∈ part, p c = false := by
  induction cs generalizing part with
  | nil =>
    rw [List.splitOnP_nil, List.mem_singleton] at h
    intro c hc
    rw [h] at hc
    cases hc
  | cons c cs ih =>
    rw [List.splitOnP_cons_eq_if_modifyHead] at h
    split at h
    · rcases List.mem_cons.mp h with rfl | hrest
      · intro d hd
        cases hd
      · exact ih hrest
    · next hc =>
      obtain ⟨head, rest, hsplit⟩ := List.exists_cons_of_ne_nil (List.splitOnP_ne_nil p cs)
      rw [hsplit, List.modifyHead_cons] at h
      rcases List.mem_cons.mp h with rfl | hrest
      · intro d hd
        rcases List.mem_cons.mp hd with rfl | hd
        · simpa using hc
        · exact ih (hsplit ▸ List.mem_cons_self) d hd
      · exact ih (hsplit ▸ List.mem_cons_of_mem _ hrest)

/-- No part contains the separator. -/
theorem not_mem_of_mem_split {sep : Char} {s part : String} (h : part ∈ split sep s) :
    sep ∉ part.toList := by
  obtain ⟨cs, hcs, rfl⟩ := List.mem_map.mp h
  intro hsep
  rw [String.toList_ofList] at hsep
  have hne := not_mem_of_mem_splitOnP hcs sep hsep
  simp at hne

def startsWith (s pat : String) : Bool := pat.toList.isPrefixOf s.toList

def endsWith (s pat : String) : Bool := pat.toList.isSuffixOf s.toList

/-- `str::contains` with a string pattern -/
def contains (s pat : String) : Bool := decide (pat.toList <:+: s.toList)

/-- `[String]::join` -/
def join (parts : List String) (sep : String) : String := sep.intercalate parts

/-- The value of a digit in a radix up to 16. -/
def digit? (radix : Nat) (c : Char) : Option Nat :=
  let n := c.toNat
  let d :=
    if 48 ≤ n ∧ n ≤ 57 then some (n - 48)
    else if 97 ≤ n ∧ n ≤ 102 then some (n - 87)
    else if 65 ≤ n ∧ n ≤ 70 then some (n - 55)
    else none
  d.filter (· < radix)

/-- The value of a digit string, most significant digit first. -/
def digits? (radix : Nat) (cs : List Char) : Option Nat :=
  cs.foldl (fun acc c => acc.bind fun n => (digit? radix c).map fun d => n * radix + d) (some 0)

/-- `u64::from_str_radix`, and `str::parse` of a `u64` or `usize` at radix 10: an optional `+`,
then at least one digit, and no overflow. -/
def parseU64 (radix : Nat) (s : String) : Option Nat :=
  let cs := s.toList
  let ds := if cs.head? = some '+' then cs.drop 1 else cs
  if ds = [] then none else (digits? radix ds).filter (· < 2 ^ 64)

end Text

end MeiliBridge
