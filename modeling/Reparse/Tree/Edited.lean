import Reparse.Tree.Basic
import Reparse.Text.Edit
/-!
# Edited trees

An edit is carried down the tree relative to each node. Nodes whose range or lookahead it touches are
built anew and flagged; all others are shared. Of the touched children the first one whose range the
edit starts in takes the replacement; later ones only lose the deleted bytes at their start.
-/
namespace Reparse

namespace Edit

/-- The edit relative to a child that starts at `offset`. -/
def shifted (e : Edit) (offset : Nat) : Edit := ⟨e.start - offset, e.oldEnd - offset, e.newEnd - offset⟩

/-- The size of a node of `size` bytes after the edit; it stays if only the lookahead is touched. -/
def resized (e : Edit) (size : Nat) : Nat :=
  if size < e.start then size
  else if e.oldEnd ≤ size then size - e.oldEnd + e.newEnd
  else e.newEnd

end Edit

namespace Subtree

/-- Whether an edit touches a child at `offset`; `absorbed` tells whether an earlier child has taken the
replacement. -/
def isTouched (e : Edit) (absorbed : Bool) (offset : Nat) (c : Subtree) : Bool :=
  offset ≤ e.oldEnd && (absorbed || e.start ≤ offset + c.size + c.lookahead)

/-- The part of the edit that a touched child takes. -/
def share (e : Edit) (absorbed : Bool) (offset : Nat) (c : Subtree) : Edit :=
  if absorbed then ⟨0, min (e.oldEnd - offset) c.size, 0⟩ else e.shifted offset

/-- The node after its children were edited. -/
def rebuilt (info : NodeInfo) (e : Edit) (id : NodeId) (children : List Subtree) : Subtree :=
  node {
    info with
    id
    size := e.resized info.size
    hasChanges := true
    offsets := runningSums 0 (children.map size) } children

mutual

/-- The subtree after an edit that touches it. New nodes are numbered from `id` on. -/
def edited (e : Edit) (id : NodeId) : Subtree → Subtree × NodeId
  | node info children =>
    let (children, id) := editedAmong e false id info.offsets children
    (rebuilt info e id children, id + 1)

def editedAmong (e : Edit) (absorbed : Bool) (id : NodeId) :
    (offsets : List Nat) → List Subtree → List Subtree × NodeId
  | offset :: offsets, c :: rest =>
    if isTouched e absorbed offset c then
      let (c', id) := edited (share e absorbed offset c) id c
      let (rest, id) :=
        editedAmong e (absorbed || e.start ≤ offset + c.size) id offsets rest
      (c' :: rest, id)
    else
      let (rest, id) := editedAmong e absorbed id offsets rest
      (c :: rest, id)
  | _, _ => ([], id)

end

end Subtree

/-- The tree after an edit, fitted to its text: ready to be reused by a parse of the new text. New nodes
are numbered from `id` on. -/
def Tree.edited (t : Tree) (e : Edit) (id : NodeId) : Tree × NodeId :=
  let (root, id) := t.root.edited (e.clamped t.size) id
  ({ t with root }, id)

end Reparse
