import Reparse.Lex.CharClass
/-!
# Token patterns

Regular patterns over characters, with the direct reading of which texts they match: `ends` sends the
offsets where a match may start to those where it may end.
-/
namespace Reparse

inductive Pattern where
  | literal (text : List Char)
  | chars (cls : CharClass)
  | seq (items : List Pattern)
  | choice (items : List Pattern)
  /-- Zero or more. -/
  | star (item : Pattern)
  /-- One or more. -/
  | plus (item : Pattern)
  | optional (item : Pattern)
  deriving Repr

namespace Pattern

def char (c : Char) : Pattern := chars (.ofRanges [(c, c)] false)

def oneOf (ranges : List CharRange) : Pattern := chars (.ofRanges ranges false)

def noneOf (ranges : List CharRange) : Pattern := chars (.ofRanges ranges true)

def any : Pattern := noneOf []

mutual

/-- Whether the pattern matches the empty text. -/
def isNullable : Pattern → Bool
  | literal text => text.isEmpty
  | chars _ => false
  | seq items => allNullable items
  | choice items => anyNullable items
  | star _ => true
  | plus item => isNullable item
  | optional _ => true

def allNullable : List Pattern → Bool
  | [] => true
  | p :: rest => isNullable p && allNullable rest

def anyNullable : List Pattern → Bool
  | [] => false
  | p :: rest => isNullable p || anyNullable rest

end

/-- A set of offsets into a text, without repetitions. -/
abbrev Offsets := List Nat

/-- The members of `new` that are not in `reached`, once each. -/
def unreached (reached new : Offsets) : Offsets := (new.filter (!reached.contains ·)).eraseDups

/-- Adds to `reached` what repeated steps lead to from `frontier`. A step that reaches an offset of the
text for the first time may be followed by another; `fuel` bounds their number. -/
def closure (step : Offsets → Offsets) : Nat → (reached frontier : Offsets) → Offsets
  | 0, reached, _ => reached
  | fuel + 1, reached, frontier =>
    match unreached reached (step frontier) with
    | [] => reached
    | new => closure step fuel (reached ++ new) new

mutual

/-- Where a match of the pattern that starts at one of `starts` may end. -/
def ends (text : List Char) : Pattern → Offsets → Offsets
  | literal word, starts =>
    (starts.filter fun start => word.isPrefixOf (text.drop start)).map (· + word.length)
  | chars cls, starts =>
    (starts.filter fun start => text[start]?.any cls.contains).map (· + 1)
  | seq items, starts => seqEnds text items starts
  | choice items, starts => (choiceEnds text items starts).eraseDups
  | star item, starts => closure (ends text item) (text.length + 1) starts starts
  | plus item, starts =>
    let once := ends text item starts
    closure (ends text item) (text.length + 1) once once
  | optional item, starts => starts ++ unreached starts (ends text item starts)

def seqEnds (text : List Char) : List Pattern → Offsets → Offsets
  | [], starts => starts
  | p :: rest, starts => seqEnds text rest (ends text p starts)

def choiceEnds (text : List Char) : List Pattern → Offsets → Offsets
  | [], _ => []
  | p :: rest, starts => ends text p starts ++ choiceEnds text rest starts

end

/-- Whether the pattern matches all of `text`. -/
def matchesAll (p : Pattern) (text : List Char) : Bool := (ends text p [0]).contains text.length

end Pattern
end Reparse
