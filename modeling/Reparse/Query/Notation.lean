import Reparse.Query.Reading
/-!
# The grammar of queries

Every source has a syntax tree. Faults are gathered on the way, and what does not fit becomes an error node,
so that reading always goes on to the end.
-/
namespace Reparse.Query

open Reading

/-- The kind of the first token that is no trivia. -/
def nextKind? (ts : List Token) : Option TokenKind :=
  (ts.dropWhile (·.kind.isTrivia)).head?.map (·.kind)

def startsPattern : TokenKind → Bool
  | .leftParen | .leftBracket | .string | .ident => true
  | _ => false

/-- Whether a predicate starts with `t`. -/
def atPredicate (t : Token) (ts : List Token) : Bool :=
  t.kind == .leftParen && nextKind? ts == some .predicateName

/-- Whether `t` is a name and not the wildcard. -/
def isPlainName (t : Token) : Bool := t.kind == .ident && t.text != "_"

def unexpected (t : Token) : String := "unexpected `" ++ t.text ++ "`"

/-- Captures, with the trivia before each. -/
def captures (ts : List Token) : Reading 0 ts :=
  match ts with
  | [] => done []
  | t :: ts =>
    if nextKind? (t :: ts) = some .capture then
      (trivia (t :: ts)).andThen fun
        | [], _ => done []
        | c :: rest, _ => ((take c rest).andThen fun rest _ => captures rest).relax
    else done (t :: ts)
termination_by ts.length
decreasing_by all_goals grind

/-- A quantifier, if one comes next, and captures. -/
def decorations (ts : List Token) : Reading 0 ts :=
  let quantifier : Reading 0 ts :=
    if (nextKind? ts).any (·.isQuantifier) then (trivia ts).andThen fun rest _ => next rest else done ts
  quantifier.andThen fun rest _ => captures rest

/-- The arguments of a predicate: captures, strings and names. -/
def arguments : (ts : List Token) → Reading 0 ts
  | [] => done []
  | t :: ts =>
    if t.kind.isTrivia || t.kind == .capture || t.kind == .string || t.kind == .ident then
      (cons t (arguments ts)).relax
    else done (t :: ts)

variable (stop : Nat)

/-- A predicate, `t` being its parenthesis. -/
def predicate (t : Token) (ts : List Token) : Reading 1 (t :: ts) :=
  ((((take t ts).andThen fun rest _ => trivia rest).andThen fun rest _ => next rest).andThen
    fun rest _ => arguments rest).andThen
      (fun rest _ => expect stop .rightParen "`)` to close the predicate" rest) |>.wrap .predicate

mutual

/-- A pattern that starts with `t`; `top` says whether it may be a group. -/
def pattern (top : Bool) (t : Token) (ts : List Token) : Reading 1 (t :: ts) :=
  let body : Reading 1 (t :: ts) :=
    match t.kind with
    | .leftParen =>
      match nextKind? ts with
      | some .ident =>
        ((((take t ts).andThen fun rest _ => trivia rest).andThen fun rest _ => next rest).andThen
          fun rest _ => children rest).andThen
            (fun rest _ => expect stop .rightParen "`)`" rest) |>.wrap .nodePattern
      | some .leftParen | some .leftBracket | some .string =>
        let group := ((take t ts).andThen fun rest _ => children rest).andThen
          (fun rest _ => expect stop .rightParen "`)`" rest) |>.wrap .group
        if top then group
        else group.blame stop "grouped sequences are only supported at the top level"
      | _ =>
        ((take t ts).andThen fun rest _ =>
          (trivia rest).blame stop "expected a node kind after `(`").andThen fun rest _ =>
            if rest.head?.any (·.kind == .rightParen) then next rest else done rest
    | .leftBracket =>
      ((take t ts).andThen fun rest _ => branches rest).andThen
        (fun rest _ => expect stop .rightBracket "`]`" rest) |>.wrap .alternation
    | .string => (take t ts).wrap .anonymousPattern
    | _ =>
      if t.kind = .ident ∧ t.text = "_" then (take t ts).wrap .wildcardPattern
      else reject stop "expected a pattern" t ts
  (body.andThen fun rest _ => decorations rest).wrap .pattern
termination_by 3 * ts.length + 3
decreasing_by all_goals grind

/-- What stands after the kind in a node pattern, or in a group, up to its closing parenthesis. -/
def children (ts : List Token) : Reading 0 ts :=
  (trivia ts).andThen fun
    | [], _ => done []
    | t :: rest, _ =>
      if t.kind = .rightParen ∨ t.kind = .rightBracket then done (t :: rest)
      else ((child t rest).andThen fun rest _ => children rest).relax
termination_by 3 * ts.length + 2
decreasing_by all_goals grind

/-- One element of a node pattern or group. -/
def child (t : Token) (ts : List Token) : Reading 1 (t :: ts) :=
  match t.kind with
  | .dot => (take t ts).wrap .anchor
  | .bang =>
    ((take t ts).andThen fun rest _ => trivia rest).andThen
      (fun rest _ => expect stop .ident "a field name after `!`" rest) |>.wrap .negatedField
  | .ident =>
    if nextKind? ts = some .colon then
      (((take t ts).andThen fun rest _ => trivia rest).andThen fun rest _ => next rest).andThen
        (fun rest _ => trivia rest) |>.andThen (fun
          | [], _ => (done []).blame stop "expected a pattern after the field name"
          | t :: rest, _ =>
            if startsPattern t.kind then (pattern false t rest).relax
            else (done (t :: rest)).blame stop "expected a pattern after the field name")
        |>.wrap .field
    else if isPlainName t then
      reject stop (unexpected t ++ "; node kinds must be parenthesized") t ts
    else pattern false t ts
  | .leftParen => if atPredicate t ts then predicate stop t ts else pattern false t ts
  | .leftBracket | .string => pattern false t ts
  | _ => reject stop (unexpected t) t ts
termination_by 3 * ts.length + 4
decreasing_by all_goals grind

/-- The patterns of an alternation up to its closing bracket. -/
def branches (ts : List Token) : Reading 0 ts :=
  (trivia ts).andThen fun
    | [], _ => done []
    | t :: rest, _ =>
      if t.kind = .rightParen ∨ t.kind = .rightBracket then done (t :: rest)
      else
        let branch : Reading 1 (t :: rest) :=
          if isPlainName t then reject stop "expected a pattern inside `[`" t rest
          else if startsPattern t.kind then pattern false t rest
          else reject stop (unexpected t) t rest
        (branch.andThen fun rest _ => branches rest).relax
termination_by 3 * ts.length + 2
decreasing_by all_goals grind

end

/-- Patterns up to the end of the source. -/
def toplevel (ts : List Token) : Reading 0 ts :=
  (trivia ts).andThen fun
    | [], _ => done []
    | t :: rest, _ =>
      let item : Reading 1 (t :: rest) :=
        if atPredicate t rest then predicate stop t rest
        else if isPlainName t then
          reject stop "expected a pattern; field names are only allowed inside a node" t rest
        else if startsPattern t.kind then pattern stop true t rest
        else reject stop (unexpected t) t rest
      (item.andThen fun rest _ => toplevel rest).relax
termination_by ts.length
decreasing_by all_goals grind

/-- The tree of a source, and what is wrong with the source from left to right. -/
def SyntaxTree.ofSource (source : String) : SyntaxTree × List Diagnostic :=
  let r := toplevel source.utf8ByteSize (Token.scan source)
  (.node .query r.parts, r.faults)

end Reparse.Query
