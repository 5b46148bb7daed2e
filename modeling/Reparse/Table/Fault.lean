import Reparse.Table.Basic
/-!
# Faults of a table

The ways in which a table, or its compiled form, contradicts itself, and the check for those of a table.
-/
namespace Reparse

inductive TableFault where
  | tokenCountRange (tokens symbols : Nat)
  | tooManySymbols
  | noStates
  | actionDimensions
  | gotoDimensions
  | tokenLexLength
  | startSymbol
  | productionLhs
  | fieldMap
  | shiftTarget (state : StateId)
  | reduceTarget (production : ProductionId)
  | gotoTarget (state : StateId)
  | lexReference
  | tokenStart
  | wordToken
  | keyword
  | extraToken
  | tokenCountExcess
  | actionTag (tag : UInt8)
  | lexTag (tag : UInt8)
  | character (code : UInt32)
  | trailingBytes
  deriving DecidableEq, Repr

namespace TableFault

/-- Lower-case hexadecimal digits after `0x`. -/
def hex (n : Nat) : String := "0x" ++ String.ofList (Nat.toDigits 16 n)

def message : TableFault → String
  | tokenCountRange tokens symbols =>
    "token count " ++ toString tokens ++ " out of range for " ++ toString symbols ++ " symbols"
  | tooManySymbols => "too many symbols"
  | noStates => "grammar has no parse states"
  | actionDimensions => "action table has the wrong dimensions"
  | gotoDimensions => "goto table has the wrong dimensions"
  | tokenLexLength => "token lexing table has the wrong length"
  | startSymbol => "start symbol must be a nonterminal"
  | productionLhs => "production lhs must be a nonterminal"
  | fieldMap => "production field map out of range"
  | shiftTarget state => "shift to unknown state " ++ toString state.toNat
  | reduceTarget production => "reduce by unknown production " ++ toString production.toNat
  | gotoTarget state => "goto to unknown state " ++ toString state.toNat
  | lexReference => "lexical automaton reference out of range"
  | tokenStart => "token start node out of range"
  | wordToken => "word token must be a pattern token"
  | keyword => "keywords must be literals of a grammar with a word token"
  | extraToken => "extras and external tokens must be terminals"
  | tokenCountExcess => "token count exceeds symbol count"
  | actionTag tag => "unknown action tag " ++ toString tag.toNat
  | lexTag tag => "unknown lexer node tag " ++ toString tag.toNat
  | character code => "invalid character " ++ hex code.toNat
  | trailingBytes => "trailing bytes after grammar table"

end TableFault

namespace Table

/-- A symbol of the table that is no terminal. -/
def isNonterminal (t : Table) (s : Symbol) : Bool := !t.isTerminal s && s.index < t.symbols.size

def dimensionFault (t : Table) : Option TableFault :=
  let symbols := t.symbols.size
  let tokens := t.tokenCount.toNat
  let states := t.stateCount.toNat
  if tokens = 0 ∨ symbols < tokens then some (.tokenCountRange tokens symbols)
  else if Symbol.error.index ≤ symbols then some .tooManySymbols
  else if states = 0 then some .noStates
  else if t.actions.size ≠ states * tokens then some .actionDimensions
  else if t.gotos.size ≠ states * (symbols - tokens) then some .gotoDimensions
  else if t.tokenLex.size ≠ tokens then some .tokenLexLength
  else if !t.isNonterminal t.start then some .startSymbol
  else none

def productionFault (t : Table) (p : Production) : Option TableFault :=
  if !t.isNonterminal p.lhs then some .productionLhs
  else if p.fields.any fun (child, field) => p.childCount ≤ child || t.fields.size ≤ field.toNat then
    some .fieldMap
  else none

def actionFault (t : Table) : Option Action → Option TableFault
  | some (.shift state) => if t.stateCount ≤ state then some (.shiftTarget state) else none
  | some (.reduce id) => if t.productions.size ≤ id.toNat then some (.reduceTarget id) else none
  | _ => none

def gotoFault (t : Table) : Option StateId → Option TableFault
  | some state => if t.stateCount ≤ state then some (.gotoTarget state) else none
  | none => none

/-- Whether a node's class is sorted and its references are in the table. -/
def lexNodeFits (t : Table) : LexNode → Bool
  | .chars cls next => CharClass.isSorted cls.ranges.toList && next.toNat < t.lexNodes.size
  | .split a b => a.toNat < t.lexNodes.size && b.toNat < t.lexNodes.size
  | .accept s => t.isTerminal s

def lexFault (t : Table) : Option TableFault :=
  if !t.lexNodes.all t.lexNodeFits then some .lexReference
  else if t.tokenLex.any fun lex => lex.start.any fun node => t.lexNodes.size ≤ node.toNat then
    some .tokenStart
  else none

def keywordFault (t : Table) : Option TableFault :=
  let isPattern (word : Symbol) : Bool :=
    (t.tokenLex[word.index]?).any fun lex => lex.start.isSome && !lex.literal
  if t.word.any fun word => !isPattern word then some .wordToken
  else if t.tokenLex.any fun lex => lex.keyword && (t.word.isNone || !lex.literal) then some .keyword
  else none

def extraFault (t : Table) : Option TableFault :=
  if (t.extras ++ t.externals).any fun s => !t.isTerminal s || s == .eof then some .extraToken
  else none

/-- The first contradiction in the table. -/
def fault? (t : Table) : Option TableFault :=
  t.dimensionFault
    <|> t.productions.toList.findSome? t.productionFault
    <|> t.actions.toList.findSome? t.actionFault
    <|> t.gotos.toList.findSome? t.gotoFault
    <|> t.lexFault
    <|> t.keywordFault
    <|> t.extraFault

def validate (t : Table) : Except TableFault Unit :=
  match t.fault? with
  | some fault => .error fault
  | none => .ok ()

end Table
end Reparse
