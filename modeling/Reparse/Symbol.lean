/-!
# Grammar symbols

Symbols, states, productions, fields and lex modes are numbered with 16-bit words. Terminals come first,
beginning with the end of input; nonterminals follow. The error symbol lies outside both ranges.
-/
namespace Reparse

structure Symbol where
  id : UInt16
  deriving DecidableEq, Repr, Hashable

namespace Symbol

/-- The end of the input. -/
def eof : Symbol := ⟨0⟩

/-- Error tokens and error nodes. -/
def error : Symbol := ⟨0xFFFF⟩

def index (s : Symbol) : Nat := s.id.toNat

/-- The symbol with the low 16 bits of `n`. -/
def ofIndex (n : Nat) : Symbol := ⟨n.toUInt16⟩

def isError (s : Symbol) : Bool := s == error

theorem index_lt (s : Symbol) : s.index < 65536 := s.id.toNat_lt

theorem index_ofIndex {n : Nat} (h : n < 65536) : (ofIndex n).index = n := by
  simpa [ofIndex, index] using Nat.mod_eq_of_lt h

theorem index_inj {a b : Symbol} : a.index = b.index ↔ a = b := by
  constructor
  · intro h
    cases a; cases b
    simp only [index, UInt16.toNat_inj] at h
    rw [h]
  · intro h
    rw [h]

end Symbol

/-- A state of the parse table. -/
abbrev StateId := UInt16

/-- A position in the list of productions. -/
abbrev ProductionId := UInt16

/-- The production of nodes that no reduction built. -/
def noProduction : ProductionId := 0xFFFF

/-- A position in the list of field names. -/
abbrev FieldId := UInt16

/-- A position in the list of lex modes. -/
abbrev LexModeId := UInt16

/-- The mode in which every terminal may be lexed. -/
def errorLexMode : LexModeId := 0xFFFF

/-- What is known of a symbol beside its number. -/
structure SymbolInfo where
  name : String
  /-- Shown by node navigation; a hidden node is replaced by its children. -/
  visible : Bool
  /-- A rule or a named token, not an anonymous literal. -/
  named : Bool
  /-- May stand between any two tokens. -/
  extra : Bool
  /-- Stands for one or more items, by the rules `R -> R R` and `R -> item`. -/
  repetition : Bool
  deriving DecidableEq, Repr

/-- Symbol 0. -/
def SymbolInfo.endOfInput : SymbolInfo := ⟨"end", false, false, false, false⟩

end Reparse
