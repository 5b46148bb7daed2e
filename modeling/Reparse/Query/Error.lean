import Reparse.Diagnostic
/-!
# Query errors

Why a source is no query for a language.
-/
namespace Reparse.Query

inductive ErrorKind where
  | malformed
  | nodeType
  | field
  | capture
  | predicate
  deriving DecidableEq, Repr

namespace ErrorKind

def text : ErrorKind → String
  | malformed => "Syntax"
  | nodeType => "NodeType"
  | field => "Field"
  | capture => "Capture"
  | predicate => "Predicate"

def code : ErrorKind → ErrorCode
  | malformed => .E0501
  | nodeType => .E0502
  | field => .E0503
  | capture => .E0504
  | predicate => .E0505

end ErrorKind

inductive Cause where
  /-- The source does not follow the grammar of queries. -/
  | malformed (message : String)
  | decoratedGroup
  | emptyGroup
  | emptyAlternation
  | unknownKind (name : String)
  | unknownLiteral (text : String)
  | unknownField (name : String)
  /-- A negated field in a group, where no node has it. -/
  | looseNegation (field : String)
  | unknownCapture (name : String)
  /-- A predicate outside every pattern. -/
  | loosePredicate
  | argumentCount (predicate : String) (count : Nat)
  | captureNeeded (predicate : String)
  | stringNeeded (predicate : String)
  | invalidRegex (predicate : String)
  | unknownPredicate (predicate : String)
  deriving DecidableEq, Repr

namespace Cause

def kind : Cause → ErrorKind
  | malformed _ | decoratedGroup | emptyGroup | emptyAlternation => .malformed
  | unknownKind _ | unknownLiteral _ => .nodeType
  | unknownField _ | looseNegation _ => .field
  | unknownCapture _ => .capture
  | loosePredicate | argumentCount _ _ | captureNeeded _ | stringNeeded _ | invalidRegex _
  | unknownPredicate _ => .predicate

def message : Cause → String
  | malformed message => message
  | decoratedGroup => "groups cannot be quantified or captured"
  | emptyGroup => "empty group"
  | emptyAlternation => "empty alternation"
  | unknownKind name => "unknown node type `" ++ name ++ "`"
  | unknownLiteral text => "unknown token `" ++ text ++ "`"
  | unknownField name => "unknown field `" ++ name ++ "`"
  | looseNegation field => "negated field `" ++ field ++ "` needs an enclosing node"
  | unknownCapture name => "unknown capture `@" ++ name ++ "`"
  | loosePredicate => "predicates must appear inside a pattern"
  | argumentCount predicate count =>
    "`" ++ predicate ++ "` takes 2 arguments, found " ++ toString count
  | captureNeeded predicate => "first argument of `" ++ predicate ++ "` must be a capture"
  | stringNeeded predicate => "second argument of `" ++ predicate ++ "` must be a string"
  | invalidRegex predicate => "invalid regex in `" ++ predicate ++ "`"
  | unknownPredicate predicate => "unknown predicate `" ++ predicate ++ "`"

end Cause

structure Error where
  cause : Cause
  /-- Where in the source. -/
  offset : Nat
  deriving DecidableEq, Repr

namespace Error

def kind (e : Error) : ErrorKind := e.cause.kind

def message (e : Error) : String := e.cause.message

def text (e : Error) : String :=
  e.kind.code.text ++ " at offset " ++ toString e.offset ++ ": " ++ e.message

def toDiagnostic (e : Error) : Diagnostic := .atOffset e.kind.code e.offset e.message

end Error
end Reparse.Query
