/-!
# Tokens of queries

A query source is cut into tokens without a gap. What no token matches is an error token: a single
character, or all of a string that does not end.
-/
namespace Reparse.Query

inductive TokenKind where
  | whitespace
  | comment
  | ident
  | string
  | capture
  | predicateName
  | leftParen
  | rightParen
  | leftBracket
  | rightBracket
  | colon
  | bang
  | dot
  | question
  | star
  | plus
  | error
  deriving DecidableEq, Repr

namespace TokenKind

def text : TokenKind → String
  | whitespace => "WHITESPACE"
  | comment => "COMMENT"
  | ident => "IDENT"
  | string => "STRING"
  | capture => "CAPTURE"
  | predicateName => "PREDICATE_NAME"
  | leftParen => "L_PAREN"
  | rightParen => "R_PAREN"
  | leftBracket => "L_BRACKET"
  | rightBracket => "R_BRACKET"
  | colon => "COLON"
  | bang => "BANG"
  | dot => "DOT"
  | question => "QUESTION"
  | star => "STAR"
  | plus => "PLUS"
  | error => "ERROR"

/-- Blanks and comments, which may stand between any two tokens. -/
def isTrivia : TokenKind → Bool
  | whitespace | comment => true
  | _ => false

def isQuantifier : TokenKind → Bool
  | question | star | plus => true
  | _ => false

end TokenKind

structure Token where
  kind : TokenKind
  text : String
  offset : Nat
  deriving DecidableEq, Repr

namespace Token

def size (t : Token) : Nat := t.text.utf8ByteSize

def isBlank (c : Char) : Bool := c == ' ' || c == '\t' || c == '\r' || c == '\n'

def startsName (c : Char) : Bool := c.isAlpha || c == '_'

def inName (c : Char) : Bool := c.isAlphanum || c == '_'

def inCapture (c : Char) : Bool := inName c || c == '.' || c == '-'

def inPredicate (c : Char) : Bool := inName c || c == '-'

/-- How many characters of `cs` are in `accepts` before the first that is not. -/
def span (accepts : Char → Bool) (cs : List Char) : Nat := (cs.takeWhile accepts).length

/-- Characters of a string after its opening quote, and whether it ends. A backslash takes the next
character with it, unless that ends the line. -/
def stringSpan : List Char → Bool × Nat
  | [] => (false, 0)
  | '"' :: _ => (true, 1)
  | ['\\'] => (false, 0)
  | '\\' :: c :: rest =>
    if c = '\n' then (false, 0)
    else
      let (ends, n) := stringSpan rest
      (ends, n + 2)
  | _ :: rest =>
    let (ends, n) := stringSpan rest
    (ends, n + 1)

/-- A name after its sign: `inRest` says what may follow the first character. -/
def signedSpan (inRest : Char → Bool) : List Char → Option Nat
  | c :: rest => if startsName c then some (1 + span inRest rest) else none
  | [] => none

/-- The kind of the token that starts with `c`, and how many of the characters after `c` belong to it. -/
def first (c : Char) (cs : List Char) : TokenKind × Nat :=
  match c with
  | '(' => (.leftParen, 0)
  | ')' => (.rightParen, 0)
  | '[' => (.leftBracket, 0)
  | ']' => (.rightBracket, 0)
  | ':' => (.colon, 0)
  | '!' => (.bang, 0)
  | '.' => (.dot, 0)
  | '?' => (.question, 0)
  | '*' => (.star, 0)
  | '+' => (.plus, 0)
  | ';' => (.comment, span (· != '\n') cs)
  | '"' =>
    let (ends, n) := stringSpan cs
    (if ends then .string else .error, n)
  | '@' =>
    match signedSpan inCapture cs with
    | some n => (.capture, n)
    | none => (.error, 0)
  | '#' =>
    match signedSpan inPredicate cs with
    | some n => (.predicateName, n + span (fun c => c == '?' || c == '!') ((cs.drop n).take 1))
    | none => (.error, 0)
  | c =>
    if isBlank c then (.whitespace, span isBlank cs)
    else if startsName c then (.ident, span inName cs)
    else (.error, 0)

/-- The tokens of characters that start at `offset`. -/
def scanFrom (offset : Nat) : List Char → List Token
  | [] => []
  | c :: cs =>
    let (kind, n) := first c cs
    let text := String.ofList (c :: cs.take n)
    ⟨kind, text, offset⟩ :: scanFrom (offset + text.utf8ByteSize) (cs.drop n)
  termination_by cs => cs.length

def scan (source : String) : List Token := scanFrom 0 source.toList

end Token
end Reparse.Query
