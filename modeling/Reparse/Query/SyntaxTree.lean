import Reparse.Query.Token
/-!
# Syntax trees of queries

A tree holds every token of its source, blanks and comments included.
-/
namespace Reparse.Query

inductive NodeKind where
  | query
  /-- A pattern with its quantifier and captures. -/
  | pattern
  /-- A kind in parentheses with its children. -/
  | nodePattern
  /-- A string, for an anonymous node. -/
  | anonymousPattern
  | wildcardPattern
  | alternation
  /-- Patterns in parentheses, for siblings in a row. -/
  | group
  | field
  | negatedField
  | anchor
  | predicate
  | error
  deriving DecidableEq, Repr

def NodeKind.text : NodeKind → String
  | query => "QUERY"
  | pattern => "PATTERN"
  | nodePattern => "NODE_PATTERN"
  | anonymousPattern => "ANONYMOUS_PATTERN"
  | wildcardPattern => "WILDCARD_PATTERN"
  | alternation => "ALTERNATION"
  | group => "GROUP"
  | field => "FIELD"
  | negatedField => "NEGATED_FIELD"
  | anchor => "ANCHOR"
  | predicate => "PREDICATE"
  | error => "ERROR"

inductive SyntaxTree where
  | token (t : Token)
  | node (kind : NodeKind) (children : List SyntaxTree)
  deriving Repr

namespace SyntaxTree

mutual

/-- The tokens of the tree from left to right. -/
def tokens : SyntaxTree → List Token
  | token t => [t]
  | node _ children => tokensOf children

def tokensOf : List SyntaxTree → List Token
  | [] => []
  | s :: rest => s.tokens ++ tokensOf rest

end

theorem tokensOf_append (a b : List SyntaxTree) : tokensOf (a ++ b) = tokensOf a ++ tokensOf b := by
  induction a with
  | nil => rfl
  | cons s rest ih => simp [tokensOf, ih]

/-- The source of the tree. -/
def text (s : SyntaxTree) : String := String.join (s.tokens.map (·.text))

/-- Where the tree starts in the source. -/
def start (s : SyntaxTree) : Nat := (s.tokens.head?.map (·.offset)).getD 0

mutual

/-- Nodes and tokens with their depths, each node before its children. -/
def rows (depth : Nat) : SyntaxTree → List (Nat × SyntaxTree)
  | token t => [(depth, token t)]
  | node kind children => (depth, node kind children) :: rowsOf (depth + 1) children

def rowsOf (depth : Nat) : List SyntaxTree → List (Nat × SyntaxTree)
  | [] => []
  | s :: rest => rows depth s ++ rowsOf depth rest

end

/-- The tokens directly among `children`. -/
def ownTokens (children : List SyntaxTree) : List Token :=
  children.filterMap fun
    | token t => some t
    | node _ _ => none

/-- The first token of a kind directly among `children`. -/
def ownToken? (kind : TokenKind) (children : List SyntaxTree) : Option Token :=
  (ownTokens children).find? (·.kind == kind)

end SyntaxTree
end Reparse.Query
