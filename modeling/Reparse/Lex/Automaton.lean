import Reparse.Lex.Pattern
import Reparse.Symbol
/-!
# Token automata

All tokens of a grammar share one arena of automaton nodes. A token is added by building its pattern
backwards from an accepting node.
-/
namespace Reparse

inductive LexNode where
  /-- Consumes one character of the class. -/
  | chars (cls : CharClass) (next : UInt32)
  /-- Continues at both nodes without consuming. -/
  | split (a b : UInt32)
  /-- The text consumed so far is a token. -/
  | accept (symbol : Symbol)
  deriving DecidableEq, Repr

/-- The nodes of a grammar's token automata. -/
abbrev LexArena := Array LexNode

namespace LexArena

/-- Adds a node at the end, with its number. -/
def add (arena : LexArena) (node : LexNode) : UInt32 × LexArena := (arena.size.toUInt32, arena.push node)

/-- Nodes that consume the given characters and continue at `next`. -/
def addLiteral (arena : LexArena) (next : UInt32) : List Char → UInt32 × LexArena
  | [] => (next, arena)
  | c :: rest =>
    let (next, arena) := addLiteral arena next rest
    arena.add (.chars ⟨#[(c, c)], false⟩ next)

/-- Splits that lead to every one of `entries`, the first one before the others. -/
def addSplits (arena : LexArena) (next : UInt32) : List UInt32 → UInt32 × LexArena
  | [] => (next, arena)
  | [entry] => (entry, arena)
  | entry :: rest =>
    let (others, arena) := addSplits arena next rest
    arena.add (.split entry others)

mutual

/-- Nodes for `pattern`; completing it continues at `next`. -/
def addPattern (arena : LexArena) (next : UInt32) : Pattern → UInt32 × LexArena
  | .literal text => addLiteral arena next text
  | .chars cls => arena.add (.chars cls next)
  | .seq items => addSeq arena next items
  | .choice items =>
    let (entries, arena) := addChoices arena next items
    addSplits arena next entries
  | .optional item =>
    let (entry, arena) := addPattern arena next item
    arena.add (.split entry next)
  | .star item =>
    let (fork, arena) := arena.add (.split next next)
    let (body, arena) := addPattern arena fork item
    (fork, arena.setIfInBounds fork.toNat (.split body next))
  | .plus item =>
    let (fork, arena) := arena.add (.split next next)
    let (body, arena) := addPattern arena fork item
    (body, arena.setIfInBounds fork.toNat (.split body next))

/-- Nodes for `items` in a row, the last one built first. -/
def addSeq (arena : LexArena) (next : UInt32) : List Pattern → UInt32 × LexArena
  | [] => (next, arena)
  | p :: rest =>
    let (next, arena) := addSeq arena next rest
    addPattern arena next p

/-- Nodes for each of `items`, with their entries. -/
def addChoices (arena : LexArena) (next : UInt32) : List Pattern → List UInt32 × LexArena
  | [] => ([], arena)
  | p :: rest =>
    let (entry, arena) := addPattern arena next p
    let (entries, arena) := addChoices arena next rest
    (entry :: entries, arena)

end

/-- An automaton that accepts `pattern` as `symbol`, with its first node. -/
def addToken (arena : LexArena) (symbol : Symbol) (pattern : Pattern) : UInt32 × LexArena :=
  let (accept, arena) := arena.add (.accept symbol)
  arena.addPattern accept pattern

end LexArena
end Reparse
