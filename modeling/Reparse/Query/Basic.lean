import Reparse.Language
import Reparse.Regex.Reader
import Reparse.Query.Error
/-!
# Queries

A query holds patterns for a language. A pattern is a row of items for siblings, each with a step that a
node has to match and the number of times that it may occur.
-/
namespace Reparse

namespace Query

inductive Quantifier where
  | one
  | optional
  | star
  | plus
  deriving DecidableEq, Repr

namespace Quantifier

def least : Quantifier → Nat
  | one | plus => 1
  | optional | star => 0

/-- Whether one more may follow `count` occurrences. -/
def allows (count : Nat) : Quantifier → Bool
  | one | optional => count == 0
  | star | plus => true

/-- The same number of times, but at least once. -/
def atLeastOnce : Quantifier → Quantifier
  | optional => one
  | star => plus
  | q => q

end Quantifier

/-- Which nodes match a step. -/
inductive NodeTest where
  | any
  | named
  | symbol (s : Symbol)
  | error
  | missing
  deriving DecidableEq, Repr

mutual

inductive Step where
  /-- A node with its children; the last item may have to match the last named child. The node has no
  child in a field of `absent`. -/
  | node (test : NodeTest) (items : List Item) (anchoredEnd : Bool) (absent : List FieldId)
    (captures : List Nat)
  /-- The first of the branches that matches. -/
  | oneOf (branches : List Step) (captures : List Nat)

/-- A step in a row, for nodes in a field if it names one. An anchored item follows the one before with only
anonymous nodes between. -/
inductive Item where
  | mk (step : Step) (quantifier : Quantifier) (field : Option FieldId) (anchored : Bool)

end

namespace Item

def step : Item → Step
  | mk step _ _ _ => step

def quantifier : Item → Quantifier
  | mk _ quantifier _ _ => quantifier

/-- The item at the head of a pattern: it occurs, and follows nothing. -/
def asHead : Item → Item
  | mk step quantifier field _ => mk step quantifier.atLeastOnce field false

end Item

/-- The second argument of a comparison. -/
inductive Operand where
  | capture (index : Nat)
  | text (s : String)
  deriving DecidableEq, Repr

inductive Predicate where
  | equal (capture : Nat) (value : Operand) (negated : Bool)
  | occurs (capture : Nat) (regex : Regex Regex.Atom) (negated : Bool)

structure Pattern where
  items : List Item
  predicates : List Predicate
  /-- Where the pattern starts in the source. -/
  start : Nat

end Query

structure Query where
  language : Language
  patterns : List Query.Pattern
  /-- A capture is known by its index here. -/
  captureNames : List String

namespace Query

def patternCount (q : Query) : Nat := q.patterns.length

def patternStart? (q : Query) (index : Nat) : Option Nat := q.patterns[index]?.map (·.start)

def captureName? (q : Query) (index : Nat) : Option String := q.captureNames[index]?

def captureIndex? (q : Query) (name : String) : Option Nat := q.captureNames.idxOf? name

end Query
end Reparse
