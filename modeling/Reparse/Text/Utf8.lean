/-!
# UTF-8

Widths, the characters that byte sequences encode, and the reading of bytes that may be ill-formed.
-/
namespace Reparse.Utf8

/-- Bytes in the sequence that a lead byte announces; 0 for a byte that leads none. -/
def width (lead : UInt8) : Nat :=
  if lead ≤ 0x7F then 1
  else if 0xC2 ≤ lead ∧ lead ≤ 0xDF then 2
  else if 0xE0 ≤ lead ∧ lead ≤ 0xEF then 3
  else if 0xF0 ≤ lead ∧ lead ≤ 0xF4 then 4
  else 0

/-- A continuation byte. -/
def isTail (byte : UInt8) : Bool := 0x80 ≤ byte && byte ≤ 0xBF

/-- The character with the given code point, unless it is a surrogate or too large. -/
def scalar? (code : Nat) : Option Char :=
  if h : code.isValidChar then some (Char.ofNatAux code h) else none

/-- The payload of a continuation byte. -/
def tailBits (byte : UInt8) : Nat := byte.toNat - 0x80

/-- Whether `byte` may follow `lead`: overlong forms, surrogates and code points past the last one
are ruled out by the second byte. -/
def isSecond (lead byte : UInt8) : Bool :=
  if lead = 0xE0 then 0xA0 ≤ byte && byte ≤ 0xBF
  else if lead = 0xED then 0x80 ≤ byte && byte ≤ 0x9F
  else if lead = 0xF0 then 0x90 ≤ byte && byte ≤ 0xBF
  else if lead = 0xF4 then 0x80 ≤ byte && byte ≤ 0x8F
  else isTail byte

/-- The character that exactly these bytes encode. -/
def decode? : List UInt8 → Option Char
  | [a] => if width a = 1 then scalar? a.toNat else none
  | [a, b] =>
    if width a = 2 ∧ isSecond a b then scalar? ((a.toNat - 0xC0) * 64 + tailBits b) else none
  | [a, b, c] =>
    if width a = 3 ∧ isSecond a b ∧ isTail c then
      scalar? (((a.toNat - 0xE0) * 64 + tailBits b) * 64 + tailBits c)
    else none
  | [a, b, c, d] =>
    if width a = 4 ∧ isSecond a b ∧ isTail c ∧ isTail d then
      scalar? ((((a.toNat - 0xF0) * 64 + tailBits b) * 64 + tailBits c) * 64 + tailBits d)
    else none
  | _ => none

/-- Stands in for bytes that encode no character. -/
def replacement : Char := '\uFFFD'

/-- Length of the longest start of a well-formed sequence at the head of `bytes`, at least 1. -/
def subpart : List UInt8 → Nat
  | a :: b :: rest =>
    if width a ≤ 1 ∨ !isSecond a b then 1
    else match rest with
      | c :: rest =>
        if width a ≤ 2 ∨ !isTail c then 2
        else match rest with
          | d :: _ => if width a ≤ 3 ∨ !isTail d then 3 else 4
          | [] => 3
      | [] => 2
  | _ => 1

theorem subpart_pos (bytes : List UInt8) : 0 < subpart bytes := by
  unfold subpart
  repeat' split
  all_goals omega

/-- The characters of possibly ill-formed bytes: every maximal start of a sequence that is not
completed reads as one replacement character. -/
def decodeLossy : List UInt8 → List Char
  | [] => []
  | a :: rest =>
    let n := subpart (a :: rest)
    let head := (decode? ((a :: rest).take n)).getD replacement
    head :: decodeLossy ((a :: rest).drop n)
termination_by bytes => bytes.length
decreasing_by
  have := subpart_pos (a :: rest)
  simp only [List.length_drop, List.length_cons]
  omega

/-- Bytes of the encoding of `text`. -/
def size (text : List Char) : Nat := text.foldr (fun c n => c.utf8Size + n) 0

/-- Cuts `text` after `n` bytes; fails past its end and inside a character. -/
def splitAt? : List Char → Nat → Option (List Char × List Char)
  | text, 0 => some ([], text)
  | [], _ + 1 => none
  | c :: text, n + 1 =>
    if c.utf8Size ≤ n + 1 then
      (splitAt? text (n + 1 - c.utf8Size)).map fun (front, back) => (c :: front, back)
    else none

end Reparse.Utf8
