/-!
# Quoted text

A text between double quotes on one line: quotes, backslashes and control characters are escaped, and so
are characters that do not print.
-/
namespace Reparse

/-- Code points that do not print or that combine with the character before, as ranges. Covers the
control and format characters, separators, combining marks of the common blocks, surrogates and
private use. -/
def unprintable : List (Nat × Nat) := [
  (0x00, 0x1F), (0x7F, 0x9F), (0xAD, 0xAD), (0x300, 0x36F), (0x483, 0x489), (0x591, 0x5BD),
  (0x600, 0x605), (0x610, 0x61A), (0x61C, 0x61C), (0x64B, 0x65F), (0x1680, 0x1680), (0x180B, 0x180F),
  (0x1AB0, 0x1ACE), (0x1DC0, 0x1DFF), (0x2000, 0x200F), (0x2028, 0x202F), (0x205F, 0x206F),
  (0x20D0, 0x20F0), (0x3000, 0x3000), (0x302A, 0x302F), (0x3099, 0x309A), (0xD800, 0xF8FF),
  (0xFE00, 0xFE0F), (0xFE20, 0xFE2F), (0xFEFF, 0xFEFF), (0xFF9E, 0xFF9F), (0xFFF0, 0xFFFB),
  (0xFFFE, 0xFFFF), (0xE0000, 0x10FFFF)]

def isPrintable (c : Char) : Bool := !unprintable.any fun (lo, hi) => lo ≤ c.toNat && c.toNat ≤ hi

def escapeChar (c : Char) : List Char :=
  if c = '"' then ['\\', '"']
  else if c = '\\' then ['\\', '\\']
  else if c = '\n' then ['\\', 'n']
  else if c = '\r' then ['\\', 'r']
  else if c = '\t' then ['\\', 't']
  else if c = '\x00' then ['\\', '0']
  else if isPrintable c then [c]
  else ['\\', 'u', '\x7b'] ++ Nat.toDigits 16 c.toNat ++ ['\x7d']

def quoted (text : String) : String :=
  String.ofList (['"'] ++ text.toList.flatMap escapeChar ++ ['"'])

end Reparse
