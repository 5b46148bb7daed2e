import Reparse.Blob.Writer
/-!
# Reading a compiled grammar

A reader takes bytes from the front of what is left and keeps count of the offset, which an error at the
end of the data reports. Element counts are checked against the bytes that are left, so a corrupt
count is found before anything is read.
-/
namespace Reparse.Blob

/-- What is left to read, and the offset of its first byte. -/
structure Cursor where
  rest : Bytes
  offset : Nat

abbrev Reader := StateT Cursor (Except LoadError)

namespace Reader

def malformed {α : Type} (fault : TableFault) : Reader α := throw (.malformed fault)

/-- Whether the list has at least `n` elements. -/
def hasLength {α : Type} : List α → Nat → Bool
  | _, 0 => true
  | [], _ + 1 => false
  | _ :: rest, n + 1 => hasLength rest n

theorem hasLength_iff {α : Type} (items : List α) (n : Nat) : hasLength items n = true ↔ n ≤ items.length := by
  induction items generalizing n with
  | nil => cases n <;> simp [hasLength]
  | cons a rest ih => cases n <;> simp [hasLength, ih]

/-- The next `n` bytes. -/
def take (n : Nat) : Reader Bytes := fun c =>
  if hasLength c.rest n then .ok (c.rest.take n, ⟨c.rest.drop n, c.offset + n⟩)
  else .error (.unexpectedEof c.offset)

def byte : Reader UInt8 := do
  match ← take 1 with
  | [a] => pure a
  | _ => pure 0

def word16 : Reader UInt16 := do
  match ← take 2 with
  | [a, b] => pure (a.toUInt16 ||| (b.toUInt16 <<< 8))
  | _ => pure 0

def word32 : Reader UInt32 := do
  match ← take 4 with
  | [a, b, c, d] =>
    pure (a.toUInt32 ||| (b.toUInt32 <<< 8) ||| (c.toUInt32 <<< 16) ||| (d.toUInt32 <<< 24))
  | _ => pure 0

/-- An element count. Every element takes a byte or more, so a larger count than there are bytes left is
a sign of truncation. -/
def count : Reader Nat := do
  let n := (← word32).toNat
  let c ← get
  if hasLength c.rest n then pure n else throw (.unexpectedEof c.offset)

/-- Reads `n` elements, appending to `done`. -/
def manyFrom {α : Type} (read : Reader α) : Nat → Array α → Reader (Array α)
  | 0, done => pure done
  | n + 1, done => do
    let a ← read
    manyFrom read n (done.push a)

def many {α : Type} (read : Reader α) (n : Nat) : Reader (Array α) := manyFrom read n #[]

def counted {α : Type} (read : Reader α) : Reader (Array α) := do many read (← count)

def counted16 {α : Type} (read : Reader α) : Reader (List α) := do
  let items ← many read (← word16).toNat
  pure items.toList

def text : Reader String := do
  let bytes ← take (← count)
  match String.fromUTF8? bytes.toByteArray with
  | some s => pure s
  | none => throw .invalidUtf8

def symbol : Reader Symbol := do pure ⟨← word16⟩

def isSet (flags bit : UInt8) : Bool := flags &&& bit != 0

def symbolInfo : Reader SymbolInfo := do
  let name ← text
  let flags ← byte
  pure ⟨name, isSet flags 1, isSet flags 2, isSet flags 4, isSet flags 8⟩

def fieldEntry : Reader (UInt16 × FieldId) := do
  let child ← word16
  let field ← word16
  pure (child, field)

def production : Reader Production := do
  let lhs ← symbol
  let childCount ← word16
  let fields ← counted16 fieldEntry
  pure ⟨lhs, childCount, fields⟩

def action : Reader (Option Action) := do
  match ← byte with
  | 0 => pure none
  | 1 => do pure (some (.shift (← word16)))
  | 2 => do pure (some (.reduce (← word16)))
  | 3 => pure (some .accept)
  | tag => malformed (.actionTag tag)

def goto : Reader (Option StateId) := do
  match ← byte with
  | 0 => pure none
  | _ => do pure (some (← word16))

def character : Reader Char := do
  let code ← word32
  if h : code.isValidChar then pure ⟨code, h⟩ else malformed (.character code)

def charRange : Reader CharRange := do
  let lo ← character
  let hi ← character
  pure (lo, hi)

def lexNode : Reader LexNode := do
  match ← byte with
  | 0 => do
    let negated := (← byte) != 0
    let next ← word32
    let ranges ← counted charRange
    pure (.chars ⟨ranges, negated⟩ next)
  | 1 => do
    let a ← word32
    let b ← word32
    pure (.split a b)
  | 2 => do pure (.accept (← symbol))
  | tag => malformed (.lexTag tag)

/-- Keywords came with version 2. -/
def tokenLex (version : UInt16) : Reader TokenLex := do
  let flags ← byte
  let start ← word32
  pure ⟨if isSet flags 1 then some start else none, isSet flags 2, 2 ≤ version && isSet flags 4⟩

def header : Reader UInt16 := do
  let found ← take magic.length
  if found ≠ magic then throw .invalidMagic
  let version ← word16
  if version < oldestVersion ∨ formatVersion < version then throw (.versionMismatch version)
  let _ ← word16
  pure version

/-- The word token, which came with version 2. -/
def wordToken (version : UInt16) : Reader (Option Symbol) := do
  if 2 ≤ version then
    let s ← symbol
    pure (if s = .eof then none else some s)
  else pure none

def table (version : UInt16) : Reader Table := do
  let name ← text
  let symbols ← counted symbolInfo
  let tokenCount ← word16
  if symbols.size < tokenCount.toNat then malformed .tokenCountExcess
  let fields ← counted text
  let productions ← counted production
  let stateCount ← word16
  let actions ← many action (stateCount.toNat * tokenCount.toNat)
  let gotos ← many goto (stateCount.toNat * (symbols.size - tokenCount.toNat))
  let lexNodes ← counted lexNode
  let tokenLex ← many (tokenLex version) tokenCount.toNat
  let extras ← counted16 symbol
  let externals ← counted16 symbol
  let start ← symbol
  let word ← wordToken version
  pure {
    name, symbols, tokenCount, fields, productions, stateCount, actions, gotos, lexNodes, tokenLex,
    extras, externals, start, word }

end Reader

/-- The table that `data` encodes, with the format version; the data has to end with the table, and the
table has to be valid. -/
def decode (data : Bytes) : Except LoadError (Table × UInt16) := do
  let (version, c) ← Reader.header.run ⟨data, 0⟩
  let (table, c) ← (Reader.table version).run c
  if !c.rest.isEmpty then throw (.malformed .trailingBytes)
  match table.validate with
  | .ok () => pure (table, version)
  | .error fault => throw (.malformed fault)

end Reparse.Blob
