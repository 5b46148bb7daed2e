import Reparse.Tree.Subtree
/-!
# The parse stack

The entries, the top one first. An extra repeats the state below it, so the states of the structural
entries are those of the automaton.
-/
namespace Reparse

structure StackEntry where
  /-- The state after this entry. -/
  state : StateId
  subtree : Subtree
  /-- The offset just past this entry. -/
  position : Nat
  /-- The scanner's state after its last token at or below this entry. -/
  scannerState : Option (List UInt8)

abbrev ParseStack := List StackEntry

namespace ParseStack

def state (s : ParseStack) : StateId := (s.head?.map (·.state)).getD 0

def position (s : ParseStack) : Nat := (s.head?.map (·.position)).getD 0

def scannerState (s : ParseStack) : Option (List UInt8) := s.head?.bind (·.scannerState)

def push (s : ParseStack) (state : StateId) (subtree : Subtree) : ParseStack :=
  { state
    subtree
    position := s.position + subtree.size
    scannerState := if subtree.info.hasScanned then subtree.info.scannerState else s.scannerState } :: s

/-- Pushes an extra, which leaves the state as it is. -/
def pushExtra (s : ParseStack) (subtree : Subtree) : ParseStack := s.push s.state subtree

def pushExtras (s : ParseStack) (subtrees : List Subtree) : ParseStack := subtrees.foldl pushExtra s

/-- All subtrees, the bottom one first. -/
def subtrees (s : ParseStack) : List Subtree := s.reverse.map (·.subtree)

/-- Takes off the extras at the top. -/
def popExtras (s : ParseStack) : List Subtree × ParseStack :=
  (subtrees (s.takeWhile (·.subtree.isExtra)), s.dropWhile (·.subtree.isExtra))

/-- Splits off entries from the top, the last one taken first, until `count` structural ones are gone. -/
def splitStructural : Nat → ParseStack → List StackEntry × ParseStack
  | 0, s => ([], s)
  | _ + 1, [] => ([], [])
  | count + 1, entry :: rest =>
    let (taken, rest) := splitStructural (if entry.subtree.isExtra then count + 1 else count) rest
    (entry :: taken, rest)
termination_by _ s => s.length

/-- Takes off `count` structural entries with the extras between them. -/
def popStructural (s : ParseStack) (count : Nat) : List Subtree × ParseStack :=
  let (taken, rest) := splitStructural count s
  (subtrees taken, rest)

/-- State 0 below the states of the structural entries, the top one first. -/
def structuralStates (s : ParseStack) : List StateId :=
  (s.filter fun entry => !entry.subtree.isExtra).map (·.state) ++ [0]

/-- Whether an error or a missing token comes right before what follows, extras without errors aside. -/
def followsError (s : ParseStack) : Bool :=
  (s.find? fun entry => entry.subtree.isFacing).any fun entry => entry.subtree.errorAtEnd

end ParseStack
end Reparse
