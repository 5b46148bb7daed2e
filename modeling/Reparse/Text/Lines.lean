import Reparse.Text.Range
/-!
# Rows and columns

A `LineIndex` holds the offsets at which the lines of a text start. A newline ends its line, so a text
that ends in one has an empty last line. Columns count bytes.
-/
namespace Reparse

structure Point where
  row : Nat
  column : Nat
  deriving DecidableEq, Repr

structure LineIndex where
  starts : List Nat
  size : Nat
  deriving DecidableEq, Repr

namespace LineIndex

/-- Offsets just past each newline, counting from `offset`. -/
def startsAfterNewlines (offset : Nat) : List UInt8 → List Nat
  | [] => []
  | b :: rest =>
    if b = 0x0A then (offset + 1) :: startsAfterNewlines (offset + 1) rest
    else startsAfterNewlines (offset + 1) rest

def ofBytes (bytes : List UInt8) : LineIndex := ⟨0 :: startsAfterNewlines 0 bytes, bytes.length⟩

def ofText (text : String) : LineIndex := ofBytes text.toUTF8.toList

def lineCount (index : LineIndex) : Nat := index.starts.length

/-- The row and start of the last line that starts at or before `offset`, from `row` on. -/
def lineOf (offset row start : Nat) : List Nat → Nat × Nat
  | [] => (row, start)
  | next :: rest => if next ≤ offset then lineOf offset (row + 1) next rest else (row, start)

/-- The point of an offset; offsets past the end go to the end. -/
def point (index : LineIndex) (offset : Nat) : Point :=
  let offset := min offset index.size
  let (row, start) := lineOf offset 0 0 index.starts.tail
  ⟨row, offset - start⟩

/-- The offset of a point, if its line is in the text and reaches that far. A sum past the largest
offset is refused. -/
def offset (index : LineIndex) (p : Point) : Except Misuse (Option Nat) :=
  match index.starts[p.row]? with
  | none => .ok none
  | some start =>
    let stop := (index.starts[p.row + 1]?).getD index.size
    let offset := start + p.column
    if maxOffset < offset then .error .offsetOverflow
    else if offset ≤ stop then .ok (some offset)
    else .ok none

end LineIndex
end Reparse
