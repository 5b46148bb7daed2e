import Reparse.Tree.Basic
/-!
# Reusing an old tree

A cursor over an edited tree that only moves forward. It stands before a candidate and knows the
candidate's start, what stands around it, and the state that the scanner was in before it.
-/
namespace Reparse

/-- A candidate among its siblings. -/
structure ReuseFrame where
  /-- Earlier siblings, the nearest first. -/
  before : List Subtree
  current : Subtree
  start : Nat
  /-- Later siblings with their starts. -/
  after : List (Nat × Subtree)

structure ReuseCursor where
  /-- The candidate's frame, then those of the nodes around it; empty at the end. -/
  frames : List ReuseFrame
  scannerState : Option (List UInt8)
  /-- Bound on the moves that are left. -/
  moves : Nat

namespace ReuseCursor

def ofTree (t : Tree) : ReuseCursor := ⟨[⟨[], t.root, 0, []⟩], none, t.root.info.descendants⟩

/-- The candidate with its start. -/
def current? (c : ReuseCursor) : Option (Subtree × Nat) :=
  c.frames.head?.map fun frame => (frame.current, frame.start)

/-- The frames after the candidate has been passed. -/
def pastFrames : List ReuseFrame → List ReuseFrame
  | [] => []
  | frame :: above =>
    match frame.after with
    | (start, next) :: after => ⟨frame.current :: frame.before, next, start, after⟩ :: above
    | [] => pastFrames above

/-- Past the candidate. -/
def advance (c : ReuseCursor) : ReuseCursor :=
  let scannerState :=
    match c.current? with
    | some (s, _) => if s.info.hasScanned then s.info.scannerState else c.scannerState
    | none => c.scannerState
  { frames := pastFrames c.frames, scannerState, moves := c.moves - 1 }

/-- To the candidate's first child, or past a leaf. -/
def descend (c : ReuseCursor) : ReuseCursor :=
  match c.current? with
  | none => c
  | some (s, start) =>
    match s.positioned start with
    | [] => c.advance
    | (first, child) :: after =>
      { c with frames := ⟨[], child, first, after⟩ :: c.frames, moves := c.moves - 1 }

/-- The nearest node before the candidate that matters. -/
def before? (frames : List ReuseFrame) : Option Subtree :=
  frames.findSome? fun frame => frame.before.find? Subtree.isFacing

/-- The nearest node after the candidate that matters. -/
def after? (frames : List ReuseFrame) : Option Subtree :=
  frames.findSome? fun frame => (frame.after.map (·.2)).find? Subtree.isFacing

/-- Whether an error or a missing token stands right before or right after the candidate, extras without
errors aside. -/
def bordersError (c : ReuseCursor) : Bool :=
  (before? c.frames).any Subtree.errorAtEnd || (after? c.frames).any Subtree.errorAtStart

end ReuseCursor
end Reparse
