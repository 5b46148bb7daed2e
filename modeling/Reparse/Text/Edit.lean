import Reparse.Text.Range
import Reparse.Text.Utf8
/-!
# Edits

One contiguous replacement: the bytes `start..oldEnd` of the old text became `start..newEnd` of the
new one. The offsets of an `Edit` may come from anywhere; `Edit.between` and the functions built on it
refuse offsets out of order, and `clamped` fits an edit to a text.
-/
namespace Reparse

structure Edit where
  start : Nat
  oldEnd : Nat
  newEnd : Nat
  deriving DecidableEq, Repr

namespace Edit

/-- An edit whose ends do not lie before its start. -/
def between (start oldEnd newEnd : Nat) : Except Misuse Edit :=
  if maxOffset < oldEnd ∨ maxOffset < newEnd then .error .offsetOverflow
  else if start ≤ oldEnd ∧ start ≤ newEnd then .ok ⟨start, oldEnd, newEnd⟩
  else .error .unorderedEdit

/-- Replaces `range` by `size` bytes. -/
def replace (range : TextRange) (size : Nat) : Except Misuse Edit :=
  between range.start range.stop (range.start + size)

/-- Inserts `size` bytes at `offset`. -/
def insert (offset size : Nat) : Except Misuse Edit :=
  between offset offset (offset + size)

/-- Deletes `range`. -/
def delete (range : TextRange) : Except Misuse Edit :=
  between range.start range.stop range.start

/-- Replaces `range` of `text` by `replacement`: the new text with its edit. The range has to lie in
the text, at character boundaries. -/
def apply (text : String) (range : TextRange) (replacement : String) : Except Misuse (String × Edit) :=
  match Utf8.splitAt? text.toList range.start, Utf8.splitAt? text.toList range.stop with
  | some (front, _), some (_, back) => do
    let edit ← replace range replacement.utf8ByteSize
    pure (String.ofList front ++ replacement ++ String.ofList back, edit)
  | _, _ => .error .outsideText

def oldRange (e : Edit) : Except Misuse TextRange := TextRange.between e.start e.oldEnd

def newRange (e : Edit) : Except Misuse TextRange := TextRange.between e.start e.newEnd

/-- Bytes gained, negative when the text shrinks. -/
def delta (e : Edit) : Int := (e.newEnd : Int) - (e.oldEnd : Int)

/-- Where an offset of the old text lies in the new one. Offsets inside the replaced bytes go to the
end of the replacement; the answer keeps the low 32 bits. -/
def translate (e : Edit) (offset : Nat) : Nat :=
  if offset ≤ e.start then offset
  else if offset < e.oldEnd then e.newEnd
  else ((offset : Int) + e.delta).toNat % (maxOffset + 1)

/-- The edit fitted to a text of `size` bytes: within the text, with its offsets in order. -/
def clamped (e : Edit) (size : Nat) : Edit :=
  let oldEnd := min e.oldEnd size
  let start := min e.start oldEnd
  ⟨start, oldEnd, max e.newEnd start⟩

end Edit
end Reparse
