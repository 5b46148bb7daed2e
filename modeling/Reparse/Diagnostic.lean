import Reparse.Text.Range
/-!
# Diagnostics

Codes, severities and the texts of the problems found in a source or in a query. `E01xx` is lexical,
`E02xx` syntactic, `E03xx` about the run of a parse, `E05xx` about queries.
-/
namespace Reparse

inductive Severity where
  | error
  | warning
  deriving DecidableEq, Repr

def Severity.text : Severity → String
  | .error => "error"
  | .warning => "warning"

inductive ErrorCode where
  /-- A character that no token of the grammar matches. -/
  | E0101
  /-- Tokens that do not fit the grammar here. -/
  | E0201
  /-- A token the grammar asks for and the source lacks. -/
  | E0202
  /-- The parse stopped early. -/
  | E0301
  /-- Malformed query source. -/
  | E0501
  /-- A node kind that the language does not define. -/
  | E0502
  /-- A field that the language does not define. -/
  | E0503
  /-- A capture named by a predicate and not bound by its pattern. -/
  | E0504
  /-- An unknown predicate, or wrong arguments of one. -/
  | E0505
  deriving DecidableEq, Repr

namespace ErrorCode

def text : ErrorCode → String
  | E0101 => "E0101"
  | E0201 => "E0201"
  | E0202 => "E0202"
  | E0301 => "E0301"
  | E0501 => "E0501"
  | E0502 => "E0502"
  | E0503 => "E0503"
  | E0504 => "E0504"
  | E0505 => "E0505"

def all : List ErrorCode := [E0101, E0201, E0202, E0301, E0501, E0502, E0503, E0504, E0505]

/-- The message when nothing more specific is known. -/
def summary : ErrorCode → String
  | E0101 => "unrecognized character"
  | E0201 => "unexpected token"
  | E0202 => "missing token"
  | E0301 => "parse stopped before the end of the input"
  | E0501 => "invalid query syntax"
  | E0502 => "unknown node type"
  | E0503 => "unknown field"
  | E0504 => "unknown capture"
  | E0505 => "invalid predicate"

/-- A parse that was stopped leaves a usable tree, so it only warns. -/
def severity : ErrorCode → Severity
  | E0301 => .warning
  | _ => .error

def isQueryError : ErrorCode → Bool
  | E0501 | E0502 | E0503 | E0504 | E0505 => true
  | _ => false

end ErrorCode

structure Diagnostic where
  code : ErrorCode
  severity : Severity
  range : TextRange
  message : String
  hint : Option String
  deriving DecidableEq, Repr

namespace Diagnostic

def ofMessage (code : ErrorCode) (range : TextRange) (message : String) : Diagnostic :=
  ⟨code, code.severity, range, message, none⟩

/-- A zero-width diagnostic. -/
def atOffset (code : ErrorCode) (offset : Nat) (message : String) : Diagnostic :=
  ofMessage code (.empty offset) message

/-- The code's summary as the message. -/
def ofCode (code : ErrorCode) (range : TextRange) : Diagnostic :=
  ofMessage code range code.summary

def withHint (d : Diagnostic) (hint : String) : Diagnostic := { d with hint := some hint }

def isError (d : Diagnostic) : Bool := d.severity == .error

/-- One line with code, range and message; a hint goes on a second line. -/
def text (d : Diagnostic) : String :=
  d.code.text ++ " [" ++ toString d.range.start ++ ".." ++ toString d.range.stop ++ "]: " ++ d.message
    ++ match d.hint with
      | some hint => "\n  hint: " ++ hint
      | none => ""

end Diagnostic
end Reparse
