import Mathlib.Data.Nat.Basic
import MeiliBridge.Base.Text

/-!
# Bytes

Big-endian integers, and the UTF-8 form of a string with `String::from_utf8`. The standard
library's error of an invalid text says where the text stops being valid; `Utf8.error?` finds that
place, byte by byte, as the library's own validation does.
-/

set_option autoImplicit false

namespace MeiliBridge

namespace Bytes

/-- The `width` low bytes of a number, the most significant first. -/
def be : Nat → Nat → List UInt8
  | 0, _ => []
  | width + 1, n => be width (n / 256) ++ [UInt8.ofNat n]

/-- The number whose big-endian bytes these are. -/
def ofBe (bytes : List UInt8) : Nat := bytes.foldl (fun n b => n * 256 + b.toNat) 0

@[simp] theorem length_be (width n : Nat) : (be width n).length = width := by
  induction width generalizing n with
  | zero => rfl
  | succ width ih => simp [be, ih]

theorem ofBe_be (width n : Nat) : ofBe (be width n) = n % 256 ^ width := by
  induction width generalizing n with
  | zero => simp [be, ofBe, Nat.mod_one]
  | succ width ih =>
    have hstep : ofBe (be (width + 1) n) = ofBe (be width (n / 256)) * 256 + n % 256 := by
      simp [ofBe, be, List.foldl_append]
    rw [hstep, ih, pow_succ, Nat.mul_comm (256 ^ width) 256, Nat.mod_mul]
    omega

end Bytes

namespace Utf8

/-- The length of the character that a first byte announces; no character begins with the others. -/
def width (first : UInt8) : Option Nat :=
  let n := first.toNat
  if n < 0x80 then some 1
  else if 0xC2 ≤ n ∧ n ≤ 0xDF then some 2
  else if 0xE0 ≤ n ∧ n ≤ 0xEF then some 3
  else if 0xF0 ≤ n ∧ n ≤ 0xF4 then some 4
  else none

def isContinuation (b : UInt8) : Bool := decide (0x80 ≤ b.toNat ∧ b.toNat ≤ 0xBF)

/-- The second bytes that can follow a first one. -/
def secondFits (first second : UInt8) : Bool :=
  let n := second.toNat
  match first.toNat with
  | 0xE0 => decide (0xA0 ≤ n ∧ n ≤ 0xBF)
  | 0xED => decide (0x80 ≤ n ∧ n ≤ 0x9F)
  | 0xF0 => decide (0x90 ≤ n ∧ n ≤ 0xBF)
  | 0xF4 => decide (0x80 ≤ n ∧ n ≤ 0x8F)
  | _ => isContinuation second

/-- The length of the character at the front, or how many bytes of it are wrong (`none` where the
text ends within it). -/
def character : List UInt8 → Except (Option Nat) Nat
  | [] => .error none
  | first :: rest =>
    match width first with
    | none => .error (some 1)
    | some 1 => .ok 1
    | some w =>
      match rest with
      | [] => .error none
      | second :: rest =>
        if ¬ secondFits first second then .error (some 1)
        else if w = 2 then .ok 2
        else
          match rest with
          | [] => .error none
          | third :: rest =>
            if ¬ isContinuation third then .error (some 2)
            else if w = 3 then .ok 3
            else
              match rest with
              | [] => .error none
              | fourth :: _ => if ¬ isContinuation fourth then .error (some 3) else .ok 4

/-- The first place where the bytes are no UTF-8, and how many bytes are wrong there. The fuel is
the number of bytes: each character takes at least one. -/
def error? : Nat → Nat → List UInt8 → Option (Nat × Option Nat)
  | 0, _, _ => none
  | _ + 1, _, [] => none
  | fuel + 1, index, bytes =>
    match character bytes with
    | .ok w => error? fuel (index + w) (bytes.drop w)
    | .error wrong => some (index, wrong)

/-- `Utf8Error` printed -/
def errorText (bytes : List UInt8) : String :=
  match error? bytes.length 0 bytes with
  | some (index, some wrong) => s!"invalid utf-8 sequence of {wrong} bytes from index {index}"
  | some (index, none) => s!"incomplete utf-8 byte sequence from index {index}"
  | none => ""

end Utf8

namespace Text

/-- `str::as_bytes` -/
def utf8 (s : String) : List UInt8 := s.toUTF8.data.toList

/-- `String::from_utf8`, the error printed -/
def fromUtf8 (bytes : List UInt8) : Except String String :=
  match String.fromUTF8? ⟨bytes.toArray⟩ with
  | some s => .ok s
  | none => .error (Utf8.errorText bytes)

theorem fromUtf8_utf8 (s : String) : fromUtf8 (utf8 s) = .ok s := by
  have hbytes : (⟨(utf8 s).toArray⟩ : ByteArray) = s.toByteArray := by
    simp [utf8]
  have hvalid : s.toByteArray.IsValidUTF8 := s.isValidUTF8
  simp [fromUtf8, hbytes, String.fromUTF8?, hvalid, String.fromUTF8]

end Text

end MeiliBridge
