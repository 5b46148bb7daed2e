import Reparse.Tree.Cursor
/-!
# Changed ranges

What a new tree holds that an old one does not: leaves that are not shared at the same place, and nodes
without a counterpart of the same symbol and range. Also what the two share.
-/
namespace Reparse

namespace Subtree

mutual

/-- Whether `target` stands at `pos`, looked for at `start` in `s` and then in the first child that
could hold it. -/
def holds (target : Subtree) (pos start : Nat) : Subtree → Bool
  | node info children =>
    (info.id == target.id && start == pos) || holdsAmong target pos start info.offsets children

def holdsAmong (target : Subtree) (pos start : Nat) : List Nat → List Subtree → Bool
  | offset :: offsets, c :: rest =>
    let first := start + offset
    if first ≤ pos ∧ pos + target.size ≤ first + c.size ∧ target.size ≤ c.size then
      holds target pos first c
    else holdsAmong target pos start offsets rest
  | _, _ => false

end

mutual

/-- Whether a node of `symbol` has exactly the range, looked for in the first child that holds it. -/
def hasNode (symbol : Symbol) (range : TextRange) (start : Nat) : Subtree → Bool
  | node info children =>
    (info.symbol == symbol && start == range.start && start + info.size == range.stop)
      || hasNodeAmong symbol range start info.offsets children

def hasNodeAmong (symbol : Symbol) (range : TextRange) (start : Nat) : List Nat → List Subtree → Bool
  | offset :: offsets, c :: rest =>
    let first := start + offset
    if first ≤ range.start ∧ range.stop ≤ first + c.size then hasNode symbol range first c
    else hasNodeAmong symbol range start offsets rest
  | _, _ => false

end

mutual

/-- Ranges of `s`, at `start`, that `old` does not have, from left to right. -/
def changesFrom (old : Subtree) (start : Nat) : Subtree → List TextRange
  | node info children =>
    let range := TextRange.ofSize start info.size
    if holds (node info children) start 0 old then []
    else if children.isEmpty || !hasNode info.symbol range 0 old then [range]
    else changesAmong old start info.offsets children

def changesAmong (old : Subtree) (start : Nat) : List Nat → List Subtree → List TextRange
  | offset :: offsets, c :: rest =>
    changesFrom old (start + offset) c ++ changesAmong old start offsets rest
  | _, _ => []

end

end Subtree

namespace TextRange

def le (a b : TextRange) : Bool := a.start < b.start || (a.start == b.start && a.stop ≤ b.stop)

/-- Joins ranges that overlap or touch, `last` being the one under construction. -/
def mergeFrom (last : TextRange) : List TextRange → List TextRange
  | [] => [last]
  | r :: rest => if r.start ≤ last.stop then mergeFrom (last.cover r) rest else last :: mergeFrom r rest

def merge : List TextRange → List TextRange
  | [] => []
  | r :: rest => mergeFrom r rest

/-- Sorted ranges over the same bytes that neither overlap nor touch. -/
def normalize (ranges : List TextRange) : List TextRange := merge (ranges.mergeSort le)

end TextRange

/-- The ranges of `new` whose structure is not that of `old`. -/
def Tree.changes (old new : Tree) : List TextRange :=
  TextRange.normalize (Subtree.changesFrom old.root 0 new.root)

/-- The visible nodes of `new` that are visible nodes of `old`, wherever they stand. -/
def Tree.shared (old new : Tree) : List Node :=
  let nodes (t : Tree) : List Node := (Preorder.all t.rootNode []).map (·.node)
  let known := (nodes old).map (·.subtree.id)
  (nodes new).filter fun n => known.contains n.subtree.id

/-- Nodes in preorder without those that end no later than one before them, `reached` being the end of the
last one kept. -/
def Node.outermost (reached : Option Nat) : List Node → List Node
  | [] => []
  | n :: rest =>
    if reached.all (· < n.stop) then n :: outermost (some n.stop) rest else outermost reached rest

end Reparse
