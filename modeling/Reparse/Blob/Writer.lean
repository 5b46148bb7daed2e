import Reparse.Blob.Basic
/-!
# Writing a compiled grammar

`Blob.encode` concatenates one writer per part of the table.
-/
namespace Reparse.Blob

abbrev Bytes := List UInt8

def word16 (n : UInt16) : Bytes := [n.toUInt8, (n >>> 8).toUInt8]

def word32 (n : UInt32) : Bytes := [n.toUInt8, (n >>> 8).toUInt8, (n >>> 16).toUInt8, (n >>> 24).toUInt8]

def flag (bit : UInt8) (set : Bool) : UInt8 := if set then bit else 0

/-- The elements of a list, one after the other. -/
def each {α : Type} (write : α → Bytes) (items : List α) : Bytes := items.flatMap write

/-- A 32-bit count, then the elements. -/
def counted32 {α : Type} (write : α → Bytes) (items : List α) : Bytes :=
  word32 items.length.toUInt32 ++ each write items

/-- A 16-bit count, then the elements. -/
def counted16 {α : Type} (write : α → Bytes) (items : List α) : Bytes :=
  word16 items.length.toUInt16 ++ each write items

def text (s : String) : Bytes := counted32 (fun b => [b]) s.toUTF8.toList

def symbol (s : Symbol) : Bytes := word16 s.id

def symbolInfo (info : SymbolInfo) : Bytes :=
  text info.name
    ++ [flag 1 info.visible ||| flag 2 info.named ||| flag 4 info.extra ||| flag 8 info.repetition]

def fieldEntry (entry : UInt16 × FieldId) : Bytes := word16 entry.1 ++ word16 entry.2

def production (p : Production) : Bytes :=
  symbol p.lhs ++ word16 p.childCount ++ counted16 fieldEntry p.fields

def action : Option Action → Bytes
  | none => [0]
  | some (.shift state) => 1 :: word16 state
  | some (.reduce id) => 2 :: word16 id
  | some .accept => [3]

def goto : Option StateId → Bytes
  | none => [0]
  | some state => 1 :: word16 state

def charRange (r : CharRange) : Bytes := word32 r.1.val ++ word32 r.2.val

def lexNode : LexNode → Bytes
  | .chars cls next =>
    [0, flag 1 cls.negated] ++ word32 next ++ counted32 charRange cls.ranges.toList
  | .split a b => 1 :: word32 a ++ word32 b
  | .accept s => 2 :: symbol s

def tokenLex (lex : TokenLex) : Bytes :=
  [flag 1 lex.start.isSome ||| flag 2 lex.literal ||| flag 4 lex.keyword] ++ word32 (lex.start.getD 0)

def header : Bytes := magic ++ word16 formatVersion ++ word16 0

/-- The compiled form of a table. The end of input is never a word token, so 0 stands for none. -/
def encode (t : Table) : Bytes :=
  header
    ++ text t.name
    ++ counted32 symbolInfo t.symbols.toList
    ++ word16 t.tokenCount
    ++ counted32 text t.fields.toList
    ++ counted32 production t.productions.toList
    ++ word16 t.stateCount
    ++ each action t.actions.toList
    ++ each goto t.gotos.toList
    ++ counted32 lexNode t.lexNodes.toList
    ++ each tokenLex t.tokenLex.toList
    ++ counted16 symbol t.extras
    ++ counted16 symbol t.externals
    ++ symbol t.start
    ++ symbol (t.word.getD .eof)

end Reparse.Blob
