import Reparse.Tree.Basic
/-!
# Cursors

A cursor walks over the visible nodes at and below a node. It holds the way down from there, hidden nodes
included, so that going to a parent or a sibling does not start from the root again.
-/
namespace Reparse

/-- A node on the way down, with the siblings that come after it. -/
structure CursorFrame where
  subtree : Subtree
  start : Nat
  /-- Index among the siblings that are no extras. -/
  index : Nat
  field : Option FieldId
  /-- Offsets of the later siblings, relative to the parent. -/
  laterOffsets : List Nat
  later : List Subtree

structure TreeCursor where
  tree : Tree
  top : CursorFrame
  /-- The frames above, the nearest first. -/
  above : List CursorFrame

namespace TreeCursor

def ofNode (n : Node) : TreeCursor := ⟨n.tree, ⟨n.subtree, n.start, 0, none, [], []⟩, []⟩

def node (c : TreeCursor) : Node := ⟨c.tree, c.top.subtree, c.top.start⟩

/-- The field that the current node fills in its visible parent. -/
def fieldId? (c : TreeCursor) : Option FieldId := if c.above.isEmpty then none else c.top.field

def fieldName? (c : TreeCursor) : Option String := c.fieldId?.bind c.tree.language.fieldName?

/-- Visible nodes between the first node and the current one, which counts. -/
def depth (c : TreeCursor) : Nat :=
  ((c.top :: c.above).dropLast.filter fun frame => c.tree.isVisible frame.subtree).length

/-- The field that a frame passes on to its children: none if it is visible or the first. -/
def inherited (t : Tree) (parent : CursorFrame) (above : List CursorFrame) : Option FieldId :=
  if above.isEmpty || t.isVisible parent.subtree then none else parent.field

/-- The way to the first visible node at or below `children`, which belong to `parent`. -/
def firstShown (t : Tree) (parent : CursorFrame) (above : List CursorFrame) :
    (index : Nat) → (offsets : List Nat) → List Subtree → Option (CursorFrame × List CursorFrame)
  | _, _, [] => none
  | _, [], _ => none
  | index, offset :: offsets, .node info below :: rest =>
    let c := Subtree.node info below
    let field := Node.fieldOf t.language parent.subtree.info (inherited t parent above) index c
    let frame : CursorFrame := ⟨c, parent.start + offset, index, field, offsets, rest⟩
    if t.isVisible c then some (frame, parent :: above)
    else if 0 < info.visibleChildren then firstShown t frame (parent :: above) 0 info.offsets below
    else firstShown t parent above (Node.nextIndex index c) offsets rest

/-- To the first child. -/
def firstChild? (c : TreeCursor) : Option TreeCursor :=
  (firstShown c.tree c.top c.above 0 c.top.subtree.info.offsets c.top.subtree.children).map
    fun (top, above) => ⟨c.tree, top, above⟩

/-- The way to the first visible node at or below the later siblings of `top`. -/
def laterShown (t : Tree) (top parent : CursorFrame) (above : List CursorFrame) :
    Option (CursorFrame × List CursorFrame) :=
  firstShown t parent above (Node.nextIndex top.index top.subtree) top.laterOffsets top.later

/-- The way to the next visible node after `top` below the same visible parent. -/
def nextShown (t : Tree) (top : CursorFrame) : List CursorFrame → Option (CursorFrame × List CursorFrame)
  | [] => none
  | parent :: above =>
    match laterShown t top parent above with
    | some found => some found
    | none => if above.isEmpty || t.isVisible parent.subtree then none else nextShown t parent above

def nextSibling? (c : TreeCursor) : Option TreeCursor :=
  (nextShown c.tree c.top c.above).map fun (top, above) => ⟨c.tree, top, above⟩

/-- The way to the nearest visible node, or to the first one. -/
def shownAbove (t : Tree) : List CursorFrame → Option (CursorFrame × List CursorFrame)
  | [] => none
  | parent :: above =>
    if above.isEmpty || t.isVisible parent.subtree then some (parent, above) else shownAbove t above

def parent? (c : TreeCursor) : Option TreeCursor :=
  (shownAbove c.tree c.above).map fun (top, above) => ⟨c.tree, top, above⟩

/-- A move of the cursor, which stays where it is if the move leads nowhere. -/
def goto (c : TreeCursor) (move : TreeCursor → Option TreeCursor) : Bool × TreeCursor :=
  match move c with
  | some c => (true, c)
  | none => (false, c)

/-- From a child on, the first one that ends after `byte`, with its index; `limit` bounds the number of
children looked at. -/
def childFrom? (byte : Nat) : (limit index : Nat) → TreeCursor → Option (Nat × TreeCursor)
  | 0, _, _ => none
  | limit + 1, index, c =>
    if byte < c.node.stop then some (index, c)
    else c.nextSibling?.bind (childFrom? byte limit (index + 1))

/-- To the first child that ends after `byte`, with its index. -/
def firstChildFor? (c : TreeCursor) (byte : Nat) : Option (Nat × TreeCursor) :=
  c.firstChild?.bind (childFrom? byte c.node.childCount 0)

end TreeCursor

/-! ## Preorder -/

/-- Whether two ranges overlap; an empty one overlaps what it lies in or touches. -/
def TextRange.meets (a b : TextRange) : Bool :=
  if a.isEmpty || b.isEmpty then a.start ≤ b.stop && b.start ≤ a.stop
  else a.start < b.stop && b.start < a.stop

/-- A walk over the visible nodes at and below a node, each before its children. With ranges, nodes that
meet none of them are left out, with all below them. -/
structure Preorder where
  /-- At the node to come next, or none at the end. -/
  next : Option TreeCursor
  ranges : List TextRange

namespace Preorder

def wanted (ranges : List TextRange) (n : Node) : Bool :=
  ranges.isEmpty || ranges.any n.range.meets

/-- To the node after everything below the current one. -/
def pastShown (t : Tree) (top : CursorFrame) : List CursorFrame → Option (CursorFrame × List CursorFrame)
  | [] => none
  | parent :: above =>
    match TreeCursor.laterShown t top parent above with
    | some found => some found
    | none => pastShown t parent above

def past? (c : TreeCursor) : Option TreeCursor :=
  (pastShown c.tree c.top c.above).map fun (top, above) => ⟨c.tree, top, above⟩

/-- The first wanted node at or after the current one, none of those passed being entered. -/
def seek (ranges : List TextRange) : (limit : Nat) → Option TreeCursor → Option TreeCursor
  | _, none => none
  | 0, _ => none
  | limit + 1, some c => if wanted ranges c.node then some c else seek ranges limit (past? c)

def ofNode (n : Node) (ranges : List TextRange) : Preorder :=
  ⟨if wanted ranges n then some (.ofNode n) else none, ranges⟩

/-- From another node, with the same ranges. -/
def reset (p : Preorder) (n : Node) : Preorder := ofNode n p.ranges

/-- The walk after its next node. -/
def advance (p : Preorder) : Preorder :=
  let limit (c : TreeCursor) : Nat :=
    ((c.top :: c.above).getLast?.map fun frame => frame.subtree.info.visibleDescendants + 1).getD 0
  { p with next := p.next.bind fun c => seek p.ranges (limit c) (c.firstChild? <|> past? c) }

/-- At most `limit` nodes, each with the cursor on it, and the walk after them. -/
def take : (limit : Nat) → Preorder → List TreeCursor × Preorder
  | 0, p => ([], p)
  | limit + 1, p =>
    match p.next with
    | none => ([], p)
    | some c =>
      let (rest, p) := take limit p.advance
      (c :: rest, p)

/-- All nodes of the walk from `n`. -/
def all (n : Node) (ranges : List TextRange) : List TreeCursor :=
  ((ofNode n ranges).take n.descendantCount).1

end Preorder
end Reparse
