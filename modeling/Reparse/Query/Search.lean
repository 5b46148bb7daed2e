import Reparse.Query.Basic
import Reparse.Tree.Basic
/-!
# Searching for a match

Whether a pattern matches at a node, and what it captures. Repeated items take as many siblings as they
can, and the first solution counts. What a search captures on the way is taken back where it fails. Every
step costs a unit of a budget, and a search without budget is given up.
-/
namespace Reparse.Query

/-- A node under the number of its capture. -/
structure Capture where
  index : Nat
  node : Node

structure SearchState where
  budget : Nat
  captures : List Capture

/-- A search spends from the budget and adds to the captures; none is one that was given up. -/
abbrev Search (α : Type) := StateT SearchState Option α

def spend : Search Unit := fun
  | ⟨0, _⟩ => none
  | ⟨budget + 1, captures⟩ => some ((), ⟨budget, captures⟩)

def push (captures : List Capture) : Search Unit :=
  modify fun s => { s with captures := s.captures ++ captures }

/-- Takes back the captures after the first `mark`. -/
def truncate (mark : Nat) : Search Unit :=
  modify fun s => { s with captures := s.captures.take mark }

/-- A search whose captures are taken back if it finds nothing. -/
def attempt (m : Search Bool) : Search Bool := do
  let mark := (← get).captures.length
  if ← m then return true
  truncate mark
  return false

def NodeTest.holds (n : Node) : NodeTest → Bool
  | any => true
  | named => n.isNamed
  | symbol s => n.symbol == s
  | error => n.isError
  | missing => n.isMissing

abbrev Sibling := Node × Option FieldId

/-- Which siblings an occurrence may pass over. -/
inductive Gap where
  | nothing
  | anonymous
  | anything

/-- Whether the gap ends at a sibling that was not taken. -/
def Gap.stopsAt (n : Node) : Gap → Bool
  | nothing => true
  | anonymous => n.isNamed
  | anything => false

/-- Where a row of items stands. -/
inductive RowKind where
  /-- At the top, from a given node on: the first item takes that node. -/
  | head
  /-- At the top, after the first item. -/
  | tail
  /-- Among the children of a node. -/
  | inner

/-- The gap before the next of `count` occurrences of an item. -/
def RowKind.gap (anchored : Bool) (count : Nat) : RowKind → Gap
  | head => if count = 0 then .nothing else .anonymous
  | tail => .anonymous
  | inner => if anchored && count == 0 then .anonymous else .anything

def RowKind.next : RowKind → RowKind
  | inner => inner
  | _ => tail

/-- How occurrences of one item are found: its frequency and field, the gap before an occurrence, the
search at a node and that for the items after it. -/
structure Occurring where
  quantifier : Quantifier
  field : Option FieldId
  gap : (count : Nat) → Gap
  solve : Node → Search Bool
  following : List Sibling → Search Bool

namespace Occurring

/-- After `count` occurrences: tries for one more, if another is allowed, and else goes on with the items
after it. -/
def continueWith (o : Occurring) (count : Nat) (siblings : List Sibling) (again : Search Bool) :
    Search Bool := do
  spend
  if ← (if o.quantifier.allows count then again else pure false) then return true
  else if o.quantifier.least ≤ count then o.following siblings
  else return false

/-- One more occurrence at the first sibling from which on the rest is found too. -/
def again (o : Occurring) (count : Nat) : List Sibling → Search Bool
  | [] => return false
  | (n, field) :: rest => do
    let taken : Search Bool :=
      if o.field.all fun wanted => field == some wanted then
        attempt do
          if ← o.solve n then o.continueWith (count + 1) rest (again o (count + 1) rest)
          else return false
      else return false
    if ← taken then return true
    else if (o.gap count).stopsAt n then return false
    else again o count rest

def run (o : Occurring) (siblings : List Sibling) : Search Bool :=
  o.continueWith 0 siblings (o.again 0 siblings)

end Occurring

/-- The captures of a step at its node. -/
def capturesAt (n : Node) (indexes : List Nat) : List Capture := indexes.map fun i => ⟨i, n⟩

/-- Whether a node has a child in one of the fields. -/
def hasFieldOf (n : Node) (fields : List FieldId) : Bool :=
  !fields.isEmpty && n.childrenWithFields.any fun child => child.2.any fields.contains

mutual

/-- Whether a step matches a node. -/
def Step.solve : Step → Node → Search Bool
  | .node test items anchoredEnd absent captures, n => do
    spend
    attempt do
      push (capturesAt n captures)
      if test.holds n && !hasFieldOf n absent then
        if items.isEmpty then return true
        else solveRow .inner anchoredEnd items n.childrenWithFields
      else return false
  | .oneOf branches captures, n => do
    spend
    attempt do
      push (capturesAt n captures)
      solveFirst branches n

/-- Whether one of the branches matches; the first counts. -/
def solveFirst : List Step → Node → Search Bool
  | [], _ => return false
  | s :: rest, n => do
    if ← attempt (s.solve n) then return true
    else solveFirst rest n

/-- Whether a row of items is found among siblings. After the last item no named sibling may be left if the
end is anchored. -/
def solveRow (kind : RowKind) (anchoredEnd : Bool) : List Item → List Sibling → Search Bool
  | [], siblings => do
    spend
    return !(anchoredEnd && siblings.any (·.1.isNamed))
  | .mk step quantifier field anchored :: rest, siblings =>
    Occurring.run ⟨quantifier, field, kind.gap anchored, fun n => step.solve n,
      fun siblings => solveRow kind.next anchoredEnd rest siblings⟩ siblings

end

/-- The siblings from a node on. -/
def siblingsFrom (n : Node) : List Sibling :=
  match n.parent? with
  | some parent =>
    let siblings := parent.childrenWithFields
    match siblings.dropWhile fun sibling => !sibling.1.same n with
    | [] => siblings
    | here => here
  | none => [(n, none)]

/-- Whether a pattern's items are found from a node on. A single item that occurs once is its step. -/
def solveItems (items : List Item) (n : Node) : Search Bool :=
  match items with
  | [.mk step .one _ _] => step.solve n
  | [.mk step .optional _ _] => step.solve n
  | items => solveRow .head false items (siblingsFrom n)

end Reparse.Query
