import Reparse.Blob.Writer
/-!
# Grammars

A grammar in rules: named tokens with their patterns, tokens left to an external scanner, extras that may
stand between any two tokens, rules with fields and precedences, and repetitions.
-/
namespace Reparse

/-- An element of a rule's right-hand side. -/
inductive Item where
  /-- A named token, an external token or a rule. -/
  | symbol (name : String)
  /-- An anonymous token with exactly this text. -/
  | literal (text : String)
  | field (name : String) (item : Item)
  deriving DecidableEq, Repr

namespace Item

/-- The fields of an item, the outermost first. -/
def fields : Item → List String
  | field name item => name :: item.fields
  | _ => []

/-- The item without its fields. -/
def core : Item → Item
  | field _ item => item.core
  | item => item

def literal? (item : Item) : Option String :=
  match item.core with
  | literal text => some text
  | _ => none

end Item

/-- What happens at equal precedence. -/
inductive Assoc where
  | left
  | right
  | none
  deriving DecidableEq, Repr

structure Rule where
  lhs : String
  items : List Item
  precedence : Int := 0
  assoc : Assoc := .none
  deriving DecidableEq, Repr

/-- A hidden symbol that stands for one or more items. -/
structure Repetition where
  lhs : String
  item : String
  deriving DecidableEq, Repr

structure Grammar where
  name : String
  tokens : List (String × Pattern) := []
  externals : List String := []
  extras : List String := []
  rules : List Rule := []
  repeats : List Repetition := []
  /-- The left-hand side of the first rule unless given. -/
  start : Option String := none
  /-- The token whose texts are words; literals that it matches are keywords, reserved everywhere. -/
  word : Option String := none

/-- Why a grammar cannot be compiled. -/
inductive BuildError where
  | noRules
  | undefinedSymbol (name : String)
  | duplicateSymbol (name : String)
  | emptyToken (name : String)
  | invalidExtra (name : String)
  | invalidWord (name : String)
  | tooManyStates (limit : Nat)
  | table (error : LoadError)
  deriving DecidableEq, Repr

namespace BuildError

def kind : BuildError → String
  | noRules => "NoRules"
  | undefinedSymbol _ => "UndefinedSymbol"
  | duplicateSymbol _ => "DuplicateSymbol"
  | emptyToken _ => "EmptyToken"
  | invalidExtra _ => "InvalidExtra"
  | invalidWord _ => "InvalidWord"
  | tooManyStates _ => "TooManyStates"
  | table error => error.kind

def message : BuildError → String
  | noRules => "grammar has no rules"
  | undefinedSymbol name => "symbol `" ++ name ++ "` is used but never defined"
  | duplicateSymbol name => "symbol `" ++ name ++ "` is defined more than once"
  | emptyToken name => "token `" ++ name ++ "` matches the empty string"
  | invalidExtra name => "extra `" ++ name ++ "` must be a token"
  | invalidWord name => "word token `" ++ name ++ "` must be a named pattern token"
  | tooManyStates limit => "grammar needs more than " ++ toString limit ++ " parse states"
  | table error => error.message

end BuildError
end Reparse
