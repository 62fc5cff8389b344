import Mathlib.Data.Rat.Floor
import MeiliBridge.Base.Text

/-!
# Doubles and JSON numbers

`serde_json` keeps a number as an unsigned integer, a negative integer or a finite double, and two
numbers are equal only within one of these forms. A finite double is kept as its exact rational
value. The sign of zero is not kept: no comparison sees it, but `serde_json` would print it.
-/

set_option autoImplicit false

namespace MeiliBridge

/-- A finite `f64`, by its value. -/
structure F64 where
  val : ℚ
  deriving DecidableEq

namespace F64

/-- `2 ^ e` -/
def pow2 (e : Int) : ℚ :=
  if 0 ≤ e then ((2 ^ e.toNat : Nat) : ℚ) else 1 / ((2 ^ (-e).toNat : Nat) : ℚ)

/-- `10 ^ e` -/
def pow10 (e : Int) : ℚ :=
  if 0 ≤ e then ((10 ^ e.toNat : Nat) : ℚ) else 1 / ((10 ^ (-e).toNat : Nat) : ℚ)

/-- The nearest integer, a tie going to the even one. -/
def roundHalfEven (x : ℚ) : Int :=
  let f := x.floor
  let r := x - f
  if r < 1 / 2 then f else if 1 / 2 < r then f + 1 else if f % 2 = 0 then f else f + 1

/-- IEEE 754 rounding to the nearest double; `none` is an overflow to infinity. -/
def ofRat? (q : ℚ) : Option F64 :=
  if q = 0 then some ⟨0⟩
  else
    let a := |q|
    let e₀ : Int := (Nat.log2 a.num.toNat : Int) - Nat.log2 a.den - 52
    let e₁ := if a / pow2 e₀ < pow2 52 then e₀ - 1 else e₀
    let e := max e₁ (-1074)
    let v := (roundHalfEven (a / pow2 e) : ℚ) * pow2 e
    if pow2 1024 ≤ v then none else some ⟨if q < 0 then -v else v⟩

/-- An integer of at most 64 bits never overflows. -/
def ofInt (n : Int) : F64 := (ofRat? n).getD ⟨0⟩

/-- What `str::parse::<f64>` makes of a text it accepts. -/
inductive Parsed where
  | finite (x : F64)
  | nonFinite
  deriving DecidableEq

/-- Split a sign off. -/
def sign (cs : List Char) : Bool × List Char :=
  match cs with
  | '-' :: rest => (true, rest)
  | '+' :: rest => (false, rest)
  | _ => (false, cs)

/-- The exponent part: nothing, or `e`, an optional sign and digits. -/
def exponent? (cs : List Char) : Option Int :=
  match cs with
  | [] => some 0
  | c :: rest =>
    if c = 'e' ∨ c = 'E' then
      let (neg, ds) := sign rest
      if ds = [] then none
      else (Text.digits? 10 ds).map fun n => if neg then -(n : Int) else n
    else none

/-- `str::parse::<f64>` -/
def parse (s : String) : Option Parsed :=
  let (neg, cs) := sign s.toList
  let lower := cs.map Char.toLower
  if lower = "inf".toList ∨ lower = "infinity".toList ∨ lower = "nan".toList then some .nonFinite
  else
    let isDigit := fun c : Char => (Text.digit? 10 c).isSome
    let whole := cs.takeWhile isDigit
    let rest := cs.dropWhile isDigit
    let (frac, rest) :=
      match rest with
      | '.' :: r => (r.takeWhile isDigit, r.dropWhile isDigit)
      | r => ([], r)
    if whole ++ frac = [] then none
    else do
      let m ← Text.digits? 10 (whole ++ frac)
      let e ← exponent? rest
      let q := (m : ℚ) * pow10 (e - frac.length)
      match ofRat? (if neg then -q else q) with
      | some x => some (.finite x)
      | none => some .nonFinite

/-- The decimal of `n` significant digits nearest to `a > 0` among the two around it that read
back as `a`, with its exponent. -/
def shortestAt (a : ℚ) (n : Nat) : Option (Nat × Int) :=
  -- the exponent of the leading digit, searched around the binary estimate
  let guess : Int := ((Nat.log2 a.num.toNat : Int) - Nat.log2 a.den) * 3 / 10
  let lead := ([-2, -1, 0, 1, 2].map (guess + ·)).find? fun (k : Int) => pow10 k ≤ a ∧
    a < pow10 (k + 1)
  lead.bind fun k =>
    let e := k - (n - 1 : Nat)
    let lo := (a / pow10 e).floor.toNat
    let ok := fun (d : Nat) => ofRat? ((d : ℚ) * pow10 e) = some ⟨a⟩
    let dist := fun (d : Nat) => |(d : ℚ) * pow10 e - a|
    if ok lo ∧ (¬ ok (lo + 1) ∨ dist lo ≤ dist (lo + 1)) then some (lo, e)
    else if ok (lo + 1) then some (lo + 1, e)
    else none

/-- Display of a finite double as `serde_json` prints it: the shortest decimal that reads back,
laid out as the `ryu` crate does. -/
def display (x : F64) : String :=
  if x.val = 0 then "0.0"
  else
    let (d, e) := ((List.range' 1 17).findSome? (shortestAt |x.val|)).getD (0, 0)
    let ds := toString d
    let len := ds.length
    let kk : Int := len + e
    let cs := ds.toList
    let body :=
      if 0 ≤ e ∧ kk ≤ 16 then ds ++ String.ofList (List.replicate e.toNat '0') ++ ".0"
      else if 0 < kk ∧ kk ≤ 16 then
        String.ofList (cs.take kk.toNat) ++ "." ++ String.ofList (cs.drop kk.toNat)
      else if -5 < kk ∧ kk ≤ 0 then "0." ++ String.ofList (List.replicate (-kk).toNat '0') ++ ds
      else if len = 1 then ds ++ "e" ++ toString (kk - 1)
      else String.ofList (cs.take 1) ++ "." ++ String.ofList (cs.drop 1) ++ "e" ++ toString (kk - 1)
    if x.val < 0 then "-" ++ body else body

end F64

/-- `serde_json::Number`. A `negInt` is negative. -/
inductive Number where
  | posInt (n : UInt64)
  | negInt (n : Int64)
  | float (x : F64)
  deriving DecidableEq

namespace Number

def ofNat (n : Nat) : Number := .posInt n.toUInt64

/-- `Number::from` of an `i64` -/
def ofI64 (n : Int) : Number :=
  if 0 ≤ n then .posInt n.toNat.toUInt64 else .negInt (Int64.ofInt n)

/-- `Number::as_i64` -/
def asI64 : Number → Option Int
  | .posInt n => if n.toNat < 2 ^ 63 then some n.toNat else none
  | .negInt n => some n.toInt
  | .float _ => none

/-- `Number::as_f64`: integers are rounded to the nearest double. -/
def asF64 : Number → F64
  | .posInt n => F64.ofInt n.toNat
  | .negInt n => F64.ofInt n.toInt
  | .float x => x

/-- Display of a number -/
def display : Number → String
  | .posInt n => toString n.toNat
  | .negInt n => toString n.toInt
  | .float x => x.display

end Number

/-! ## Casts -/

/-- `u64::MAX` -/
def u64Max : Nat := 18446744073709551615

/-- `q as u64`: truncated, and saturated at both ends -/
def castU64 (q : ℚ) : Nat := min ⌊q⌋.toNat u64Max

end MeiliBridge
