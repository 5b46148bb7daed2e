import Reparse.Lex.Automaton
/-!
# Grammar tables

The compiled form of a grammar: symbols, productions, the action and goto tables of its parse states and
the automata of its tokens. A table is plain data; `Table.validate` checks its cross-references.
-/
namespace Reparse

/-- What the parser does in a state on a terminal. -/
inductive Action where
  | shift (state : StateId)
  | reduce (production : ProductionId)
  | accept
  deriving DecidableEq, Repr

structure Production where
  lhs : Symbol
  /-- Number of children that are not extras. -/
  childCount : UInt16
  /-- Child indexes with their fields, by child index. -/
  fields : List (UInt16 × FieldId)
  deriving DecidableEq, Repr

/-- How the lexer recognizes one terminal. -/
structure TokenLex where
  /-- First automaton node; none for the end of input and for external tokens. -/
  start : Option UInt32
  /-- An exact text; wins over patterns of equal length. -/
  literal : Bool
  /-- A literal that the word token also matches. -/
  keyword : Bool
  deriving DecidableEq, Repr

/-- No automaton. -/
def TokenLex.none : TokenLex := ⟨.none, false, false⟩

structure Table where
  name : String
  symbols : Array SymbolInfo
  tokenCount : UInt16
  fields : Array String
  productions : Array Production
  stateCount : UInt16
  /-- One row of `tokenCount` entries per state. -/
  actions : Array (Option Action)
  /-- One row per state, with an entry for each nonterminal. -/
  gotos : Array (Option StateId)
  lexNodes : LexArena
  tokenLex : Array TokenLex
  extras : List Symbol
  externals : List Symbol
  start : Symbol
  /-- The token that keywords are set apart from. -/
  word : Option Symbol
  deriving DecidableEq, Repr

namespace Table

def nonterminalCount (t : Table) : Nat := t.symbols.size - t.tokenCount.toNat

def isTerminal (t : Table) (s : Symbol) : Bool := s.id < t.tokenCount

def info? (t : Table) (s : Symbol) : Option SymbolInfo := t.symbols[s.index]?

def isExtra (t : Table) (s : Symbol) : Bool := (t.info? s).any (·.extra)

/-- The entry of a state for a terminal. -/
def action (t : Table) (state : StateId) (s : Symbol) : Option Action :=
  if t.isTerminal s && state < t.stateCount then
    (t.actions[state.toNat * t.tokenCount.toNat + s.index]?).join
  else none

/-- The state that follows `state` once a nonterminal is complete. -/
def goto (t : Table) (state : StateId) (s : Symbol) : Option StateId :=
  if t.isTerminal s || t.symbols.size ≤ s.index then none
  else (t.gotos[state.toNat * t.nonterminalCount + (s.index - t.tokenCount.toNat)]?).join

/-- The production of an id that occurs in the table. -/
def production (t : Table) (id : ProductionId) : Production :=
  (t.productions[id.toNat]?).getD ⟨.error, 0, []⟩

def lexOf (t : Table) (s : Symbol) : TokenLex := (t.tokenLex[s.index]?).getD .none

/-- All terminals, in order. -/
def terminals (t : Table) : List Symbol := (List.range t.tokenCount.toNat).map .ofIndex

/-- All nonterminals, in order. -/
def nonterminals (t : Table) : List Symbol :=
  (List.range t.nonterminalCount).map fun i => .ofIndex (t.tokenCount.toNat + i)

def keywords (t : Table) : List Symbol := t.terminals.filter fun s => (t.lexOf s).keyword

def isKeyword (t : Table) (s : Symbol) : Bool := (t.lexOf s).keyword

/-- The terminals on which a state does something, in order. -/
def validTerminals (t : Table) (state : StateId) : List Symbol :=
  t.terminals.filter fun s => (t.action state s).isSome

/-- The production `R -> R R` of a repetition symbol `R`: its first one with two children. -/
def binaryRepeat (t : Table) (s : Symbol) : Option ProductionId :=
  if (t.info? s).any (·.repetition) then
    (t.productions.findIdx? fun p => p.lhs == s && p.childCount == 2).map Nat.toUInt16
  else none

end Table
end Reparse
