import Reparse.Blob.Reader
import Reparse.Lex.Scanner
import Reparse.Text.Quoted
/-!
# Languages

A language is a valid table with what the lexer derives from it: the lex modes, groups of terminals that
may come next in some parse states. Two languages are the same if they have the same handle, which
whoever makes them chooses.
-/
namespace Reparse

/-- The terminals that may come next in a group of parse states. -/
structure LexMode where
  /-- Terminals with an automaton, in order. -/
  tokens : List Symbol
  /-- Which external tokens are valid. -/
  externals : List Bool
  deriving DecidableEq, Repr

namespace LexMode

def hasExternals (mode : LexMode) : Bool := mode.externals.any id

/-- Whether every terminal of `inner` is one of `mode`. -/
def covers (mode inner : LexMode) : Bool :=
  inner.tokens.all mode.tokens.contains
    && (inner.externals.zip mode.externals).all fun (i, o) => !i || o

end LexMode

namespace Table

/-- Replaces keywords by the word token: where a keyword may come, a word is lexed first and then
compared with the keywords. -/
def withoutKeywords (t : Table) (tokens : List Symbol) : List Symbol :=
  match t.word with
  | none => tokens
  | some word =>
    let kept := tokens.filter fun s => !t.isKeyword s
    if kept.length ≠ tokens.length ∧ !kept.contains word then kept ++ [word] else kept

/-- The terminals that may come next in a state, extras included. -/
def expected (t : Table) (state : StateId) : List Symbol := t.validTerminals state ++ t.extras

/-- The lex mode of a state. -/
def lexModeOf (t : Table) (state : StateId) : LexMode :=
  let expected := t.expected state
  let lexed := expected.filter fun s => !t.externals.contains s && (t.lexOf s).start.isSome
  { tokens := (t.withoutKeywords lexed.eraseDups).mergeSort fun a b => a.id ≤ b.id
    externals := t.externals.zipIdx.map fun (s, i) => t.externals.idxOf s == i && expected.contains s }

/-- The mode that admits every terminal. -/
def errorMode (t : Table) : LexMode where
  tokens := t.withoutKeywords (t.terminals.filter fun s => (t.lexOf s).start.isSome)
  externals := t.externals.map fun _ => true

/-- Numbers the modes of the states in order of their first use. -/
def lexModes (t : Table) : Array LexMode × Array LexModeId :=
  (List.range t.stateCount.toNat).foldl
    (fun (modes, ids) state =>
      let mode := t.lexModeOf state.toUInt16
      match modes.idxOf? mode with
      | some id => (modes, ids.push id.toUInt16)
      | none => (modes.push mode, ids.push modes.size.toUInt16))
    (#[], #[])

end Table

structure Language where
  handle : Nat
  table : Table
  /-- Format version of the bytes that the table came from. -/
  version : UInt16
  modes : Array LexMode
  /-- The mode of each state. -/
  stateModes : Array LexModeId
  errorMode : LexMode
  keywords : List Symbol
  scanner : Option ExternalScanner

namespace Language

def ofValid (handle : Nat) (table : Table) (version : UInt16) : Language :=
  let (modes, stateModes) := table.lexModes
  { handle, table, version, modes, stateModes
    errorMode := table.errorMode
    keywords := table.keywords
    scanner := none }

/-- The language of a table, which has to be valid. -/
def ofTable (handle : Nat) (table : Table) : Except LoadError Language :=
  match table.validate with
  | .ok () => .ok (ofValid handle table Blob.formatVersion)
  | .error fault => .error (.malformed fault)

/-- The language that compiled bytes hold. -/
def load (handle : Nat) (data : List UInt8) : Except LoadError Language := do
  let (table, version) ← Blob.decode data
  pure (ofValid handle table version)

/-- The language with a scanner for its external tokens. -/
def withScanner (l : Language) (scanner : ExternalScanner) : Language :=
  { l with scanner := some scanner }

def sameAs (a b : Language) : Bool := a.handle == b.handle

/-- The compiled bytes of the language. -/
def toBytes (l : Language) : List UInt8 := Blob.encode l.table

/-- One line on what the language is. -/
def debugText (l : Language) : String :=
  "Language \x7b name: " ++ quoted l.table.name ++ ", version: " ++ toString l.version.toNat
    ++ ", symbols: " ++ toString l.table.symbols.size ++ ", states: " ++ toString l.table.stateCount.toNat
    ++ ", external_scanner: " ++ toString l.scanner.isSome ++ " \x7d"

def symbolName (l : Language) (s : Symbol) : String :=
  if s.isError then "ERROR" else ((l.table.info? s).map (·.name)).getD ""

/-- The symbol of a name; a rule or named token and a literal may share one. -/
def symbolNamed? (l : Language) (name : String) (named : Bool) : Option Symbol :=
  if named && name == "ERROR" then some .error
  else
    let isIt (entry : SymbolInfo × Nat) : Bool :=
      entry.2 != 0 && entry.1.name == name && entry.1.named == named
    (l.table.symbols.toList.zipIdx.find? isIt).map fun entry => .ofIndex entry.2

def isVisible (l : Language) (s : Symbol) : Bool := s.isError || (l.table.info? s).any (·.visible)

def isNamed (l : Language) (s : Symbol) : Bool := s.isError || (l.table.info? s).any (·.named)

def isExtra (l : Language) (s : Symbol) : Bool := l.table.isExtra s

def isTerminal (l : Language) (s : Symbol) : Bool := s.isError || l.table.isTerminal s

def fieldName? (l : Language) (field : FieldId) : Option String := l.table.fields[field.toNat]?

/-- The field of a name; the last one, if a table has several. -/
def fieldNamed? (l : Language) (name : String) : Option FieldId :=
  (l.table.fields.toList.zipIdx.reverse.find? fun entry => entry.1 == name).map fun entry =>
    entry.2.toUInt16

def lexModeId (l : Language) (state : StateId) : LexModeId :=
  (l.stateModes[state.toNat]?).getD errorLexMode

/-- A mode by its number; the error mode for any other number. -/
def lexMode (l : Language) (id : LexModeId) : LexMode := (l.modes[id.toNat]?).getD l.errorMode

/-- Whether a mode may produce a terminal. -/
def admits (l : Language) (mode : LexMode) (s : Symbol) : Bool :=
  match l.table.externals.idxOf? s with
  | some i => (mode.externals[i]?).getD false
  | none => mode.tokens.contains s

/-- Whether a token lexed in mode `lexedIn` would be the same in mode `id`: it is still admitted, and no
terminal competes that did not before. -/
def canRelexAs (l : Language) (s : Symbol) (lexedIn id : LexModeId) : Bool :=
  lexedIn == id ||
    match l.modes[lexedIn.toNat]?, l.modes[id.toNat]? with
    | some outer, some inner =>
      let asLexed := match l.table.word with
        | some word => if l.table.isKeyword s then word else s
        | none => s
      outer.covers inner && l.admits inner asLexed
    | _, _ => false

end Language
end Reparse
