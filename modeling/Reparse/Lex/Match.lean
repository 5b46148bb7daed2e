import Reparse.Language
import Reparse.Lex.Source
/-!
# Longest matches

The token automata of a mode run side by side over the characters of a source. A set of nodes is
collected with the help of marks: a node is in the set if its mark equals the current generation, and a
new set begins with a new generation. Generations are words and wrap.
-/
namespace Reparse

/-- The marks of a grammar's automaton nodes. -/
structure LexMarks where
  marks : Array UInt32
  generation : UInt32
  deriving DecidableEq, Repr

namespace LexMarks

def ofSize (nodes : Nat) : LexMarks := ⟨Array.replicate nodes 0, 0⟩

/-- Begins a new set. -/
def renew (m : LexMarks) : LexMarks := { m with generation := m.generation + 1 }

def isMarked (m : LexMarks) (node : UInt32) : Bool := m.marks[node.toNat]? == some m.generation

def mark (m : LexMarks) (node : UInt32) : LexMarks :=
  { m with marks := m.marks.setIfInBounds node.toNat m.generation }

end LexMarks

/-- What the lexer carries along: its marks, and the state of what it reads from. -/
structure LexState (σ : Type) where
  marks : LexMarks
  input : σ

/-- The longest match at a position. -/
structure Found where
  symbol : Symbol
  stop : Nat
  /-- One past the last byte that was looked at. -/
  furthest : Nat
  deriving DecidableEq, Repr

namespace LexArena

/-- Adds the nodes reached from the pending ones through splits, those already marked excepted. Each step
takes one pending node, and a node is marked once, so there are at most twice as many steps as nodes,
and one. -/
def close (nodes : LexArena) : Nat → List UInt32 → LexMarks → Array UInt32 → Array UInt32 × LexMarks
  | 0, _, marks, set => (set, marks)
  | _, [], marks, set => (set, marks)
  | fuel + 1, node :: pending, marks, set =>
    if marks.isMarked node then nodes.close fuel pending marks set
    else
      let marks := marks.mark node
      match nodes[node.toNat]? with
      | some (.split a b) => nodes.close fuel (a :: b :: pending) marks set
      | some _ => nodes.close fuel pending marks (set.push node)
      | none => nodes.close fuel pending marks set

/-- Adds a node and what is reached from it through splits. -/
def addNode (nodes : LexArena) (node : UInt32) (marks : LexMarks) (set : Array UInt32) :
    Array UInt32 × LexMarks :=
  nodes.close (2 * nodes.size + 1) [node] marks set

/-- Adds several nodes, in order. -/
def addNodes (nodes : LexArena) : List UInt32 → LexMarks → Array UInt32 → Array UInt32 × LexMarks
  | [], marks, set => (set, marks)
  | node :: rest, marks, set =>
    let (set, marks) := nodes.addNode node marks set
    nodes.addNodes rest marks set

/-- The node after consuming `c`. -/
def after? (nodes : LexArena) (c : Char) (node : UInt32) : Option UInt32 :=
  match nodes[node.toNat]? with
  | some (.chars cls next) => if cls.contains c then some next else none
  | _ => none

/-- Whether a node consumes a character. -/
def isConsuming (nodes : LexArena) (node : UInt32) : Bool :=
  match nodes[node.toNat]? with
  | some (.chars _ _) => true
  | _ => false

/-- The symbol that a node accepts. -/
def accepted? (nodes : LexArena) (node : UInt32) : Option Symbol :=
  match nodes[node.toNat]? with
  | some (.accept s) => some s
  | _ => none

end LexArena

namespace Table

/-- Of two tokens of equal length, a literal beats a pattern; otherwise the lower symbol wins. -/
def outranks (t : Table) (candidate incumbent : Symbol) : Bool :=
  match (t.lexOf candidate).literal, (t.lexOf incumbent).literal with
  | true, false => true
  | false, true => false
  | _, _ => candidate.id < incumbent.id

/-- The better of the best match so far and one that ends at `pos`. -/
def better (t : Table) (pos : Nat) (best : Option (Nat × Symbol)) (s : Symbol) : Option (Nat × Symbol) :=
  match best with
  | none => some (pos, s)
  | some (stop, incumbent) =>
    if stop < pos ∨ (pos = stop ∧ t.outranks s incumbent) then some (pos, s) else best

end Table

variable {σ : Type}

/-- Runs the automata in `set` from `pos` on. -/
def matchFrom (t : Table) (src : Source σ) (pos furthest : Nat) (best : Option (Nat × Symbol))
    (set : Array UInt32) (s : LexState σ) : (Option (Nat × Symbol) × Nat) × LexState σ :=
  if set.any t.lexNodes.isConsuming then
    match _h : src.charAt pos s.input with
    | (none, input) => ((best, furthest), { s with input })
    | (some d, input) =>
      let furthest := max furthest (pos + d.width)
      let targets := set.toList.filterMap (t.lexNodes.after? d.char)
      let (set, marks) := t.lexNodes.addNodes targets s.marks.renew #[]
      let stop := pos + d.width
      let best := (set.toList.filterMap t.lexNodes.accepted?).foldl (t.better stop) best
      if set.isEmpty then ((best, furthest), ⟨marks, input⟩)
      else matchFrom t src stop furthest best set ⟨marks, input⟩
  else ((best, furthest), s)
termination_by src.size - pos
decreasing_by
  have hPos := Source.lt_size_of_charAt (congrArg Prod.fst _h)
  have := d.width_pos
  omega

/-- The longest match of any of `tokens`, at least one character long. -/
def longestMatch (t : Table) (src : Source σ) (pos : Nat) (tokens : List Symbol) (s : LexState σ) :
    Option Found × LexState σ :=
  let starts := tokens.filterMap fun token => (t.lexOf token).start
  let (set, marks) := t.lexNodes.addNodes starts s.marks.renew #[]
  let ((best, furthest), s) := matchFrom t src pos pos none set { s with marks }
  (best.map fun (stop, symbol) => ⟨symbol, stop, furthest⟩, s)

end Reparse
