import Reparse.Grammar.Basic
/-!
# Grammars over symbols

Lowering replaces the names of a grammar by symbols: the end of the input, named tokens, external tokens
and literals come first, then the left-hand sides in order of their definition.
-/
namespace Reparse

structure LoweredProduction where
  lhs : Symbol
  rhs : List Symbol
  fields : List (UInt16 × FieldId)
  precedence : Int
  assoc : Assoc
  /-- The rule `R -> R R` of a repetition. -/
  binaryRepeat : Bool
  deriving DecidableEq, Repr

structure LoweredGrammar where
  name : String
  symbols : Array SymbolInfo
  tokenCount : UInt16
  fields : List String
  productions : Array LoweredProduction
  lexNodes : LexArena
  tokenLex : Array TokenLex
  extras : List Symbol
  externals : List Symbol
  start : Symbol
  word : Option Symbol

namespace LoweredGrammar

def isTerminal (g : LoweredGrammar) (s : Symbol) : Bool := s.id < g.tokenCount

end LoweredGrammar

/-- The names of a grammar, each kind in the order of its symbols or fields. -/
structure Vocabulary where
  /-- Named tokens, then external ones. -/
  tokens : List String
  literals : List String
  nonterminals : List String
  fields : List String

namespace Vocabulary

/-- The symbol of a named or external token; these follow the end of the input. -/
def token? (v : Vocabulary) (name : String) : Option Symbol :=
  (v.tokens.idxOf? name).map fun i => .ofIndex (1 + i)

def literal? (v : Vocabulary) (text : String) : Option Symbol :=
  (v.literals.idxOf? text).map fun i => .ofIndex (1 + v.tokens.length + i)

def terminalCount (v : Vocabulary) : Nat := 1 + v.tokens.length + v.literals.length

def nonterminal? (v : Vocabulary) (name : String) : Option Symbol :=
  (v.nonterminals.idxOf? name).map fun i => .ofIndex (v.terminalCount + i)

/-- The symbol of a name, a token before a rule. -/
def resolve (v : Vocabulary) (name : String) : Except BuildError Symbol :=
  match v.token? name <|> v.nonterminal? name with
  | some s => .ok s
  | none => .error (.undefinedSymbol name)

def itemSymbol (v : Vocabulary) : Item → Except BuildError Symbol
  | .symbol name => v.resolve name
  | .literal text => (v.literal? text).elim (.error (.undefinedSymbol text)) .ok
  | .field _ item => v.itemSymbol item

/-- By child, then by field. -/
def fieldLe (a b : UInt16 × FieldId) : Bool := a.1 < b.1 || (a.1 == b.1 && a.2 ≤ b.2)

/-- The fields of a rule's children. -/
def fieldMap (v : Vocabulary) (items : List Item) : List (UInt16 × FieldId) :=
  (items.zipIdx.flatMap fun (item, child) =>
    item.fields.map fun name => (child.toUInt16, (v.fields.idxOf name).toUInt16)).mergeSort fieldLe

def lowerRule (v : Vocabulary) (rule : Rule) : Except BuildError LoweredProduction := do
  let rhs ← rule.items.mapM v.itemSymbol
  let lhs ← v.resolve rule.lhs
  pure {
    lhs, rhs
    fields := v.fieldMap rule.items
    precedence := rule.precedence
    assoc := rule.assoc
    binaryRepeat := false }

/-- The rules `R -> R R` and `R -> item`. -/
def lowerRepeat (v : Vocabulary) (r : Repetition) : Except BuildError (List LoweredProduction) := do
  let lhs ← v.resolve r.lhs
  let item ← v.resolve r.item
  pure [⟨lhs, [lhs, lhs], [], 0, .left, true⟩, ⟨lhs, [item], [], 0, .none, false⟩]

end Vocabulary

namespace Grammar

def vocabulary (g : Grammar) : Vocabulary where
  tokens := g.tokens.map (·.1) ++ g.externals
  literals := (g.rules.flatMap fun rule => rule.items.filterMap Item.literal?).eraseDups
  nonterminals := (g.rules.map (·.lhs) ++ g.repeats.map (·.lhs)).eraseDups
  fields := (g.rules.flatMap fun rule => rule.items.flatMap Item.fields).eraseDups

def isRepetition (g : Grammar) (name : String) : Bool := (g.repeats.map (·.lhs)).contains name

/-- A name that starts with an underscore is hidden, and so is a repetition. -/
def namedInfo (name : String) (extra repetition : Bool) : SymbolInfo :=
  { name
    visible := !name.startsWith "_" && !repetition
    named := true
    extra
    repetition }

def literalInfo (text : String) : SymbolInfo :=
  { name := text, visible := true, named := false, extra := false, repetition := false }

def symbolInfos (g : Grammar) (v : Vocabulary) : List SymbolInfo :=
  .endOfInput ::
    (v.tokens.map fun name => namedInfo name (g.extras.contains name) false)
    ++ v.literals.map literalInfo
    ++ v.nonterminals.map fun name => namedInfo name false (g.isRepetition name)

/-- The first named token that matches the empty text or whose name is taken. -/
def tokenFault (earlier : List String) : List (String × Pattern) → Option BuildError
  | [] => none
  | (name, pattern) :: rest =>
    if pattern.isNullable then some (.emptyToken name)
    else if earlier.contains name then some (.duplicateSymbol name)
    else tokenFault (name :: earlier) rest

/-- The first name that is taken, by one of `earlier` or within the list. -/
def duplicateFault (earlier : List String) : List String → Option BuildError
  | [] => none
  | name :: rest =>
    if earlier.contains name then some (.duplicateSymbol name)
    else duplicateFault (name :: earlier) rest

/-- What is wrong with the declarations, the first fault in order. -/
def declarationFault (g : Grammar) (v : Vocabulary) : Option BuildError :=
  let named := g.tokens.map (·.1)
  if g.rules.isEmpty ∧ g.repeats.isEmpty then some .noRules
  else
    tokenFault [] g.tokens
      <|> duplicateFault named g.externals
      <|> (g.word.filter fun word => !named.contains word).map .invalidWord
      <|> (v.nonterminals.find? v.tokens.contains).map .duplicateSymbol
      <|> (g.extras.find? fun name => !v.tokens.contains name).map fun name =>
        if v.nonterminals.contains name then .invalidExtra name else .undefinedSymbol name

/-- The automata of some tokens, numbered from `index` on, with their first nodes. -/
def addAutomata : (index : Nat) → List Pattern → LexArena → List UInt32 × LexArena
  | _, [], arena => ([], arena)
  | index, p :: rest, arena =>
    let (first, arena) := arena.addToken (.ofIndex index) p
    let (starts, arena) := addAutomata (index + 1) rest arena
    (first :: starts, arena)

/-- Whether a literal is one of the word token's texts. -/
def isKeyword (g : Grammar) (text : String) : Bool :=
  match g.word with
  | some word => (g.tokens.find? fun (name, _) => name == word).any fun (_, p) => p.matchesAll text.toList
  | none => false

def tokenLex (g : Grammar) (v : Vocabulary) (named anonymous : List UInt32) : List TokenLex :=
  .none ::
    (named.map fun node => ⟨some node, false, false⟩)
    ++ g.externals.map (fun _ => .none)
    ++ (v.literals.zip anonymous).map fun (text, node) => ⟨some node, true, g.isKeyword text⟩

def lower (g : Grammar) : Except BuildError LoweredGrammar := do
  let v := g.vocabulary
  if let some fault := g.declarationFault v then throw fault
  let extras ← g.extras.mapM v.resolve
  let externals ← g.externals.mapM v.resolve
  let word ← g.word.mapM v.resolve
  let rules ← g.rules.mapM v.lowerRule
  let repeats ← g.repeats.mapM v.lowerRepeat
  let productions := rules ++ repeats.flatten
  let start ← match g.start, productions with
    | some name, _ => v.resolve name
    | none, p :: _ => pure p.lhs
    | none, [] => throw .noRules
  let (named, arena) := addAutomata 1 (g.tokens.map (·.2)) #[]
  let (anonymous, lexNodes) :=
    addAutomata (1 + v.tokens.length) (v.literals.map fun text => .literal text.toList) arena
  pure {
    name := g.name
    symbols := (g.symbolInfos v).toArray
    tokenCount := v.terminalCount.toUInt16
    fields := v.fields
    productions := productions.toArray
    lexNodes
    tokenLex := (g.tokenLex v named anonymous).toArray
    extras, externals, start, word }

end Grammar
end Reparse
