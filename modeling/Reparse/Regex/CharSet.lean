import Reparse.Text.WordChars
import Reparse.Text.LetterCase
/-!
# Sets of characters

What an atom of an expression accepts. Case counts only where a set says so, so that one set serves with
and without regard to case.
-/
namespace Reparse.Regex

inductive CharSet where
  | none
  | range (first last : Char)
  | digit
  | word
  | space
  | either (a b : CharSet)
  | both (a b : CharSet)
  | minus (a b : CharSet)
  | exactlyOne (a b : CharSet)
  | outside (a : CharSet)
  /-- With the case variants of its characters, where case is ignored. -/
  | cased (a : CharSet)
  deriving Repr

namespace CharSet

def holds (ignoreCase : Bool) : CharSet → Char → Bool
  | none, _ => false
  | range first last, c => first ≤ c && c ≤ last
  | digit, c => isDecimalDigit c
  | word, c => isWordChar c
  | space, c => isWhiteSpace c
  | either a b, c => a.holds ignoreCase c || b.holds ignoreCase c
  | both a b, c => a.holds ignoreCase c && b.holds ignoreCase c
  | minus a b, c => a.holds ignoreCase c && !b.holds ignoreCase c
  | exactlyOne a b, c => a.holds ignoreCase c != b.holds ignoreCase c
  | outside a, c => !a.holds ignoreCase c
  | cased a, c => if ignoreCase then (caseVariants c).any (a.holds ignoreCase) else a.holds ignoreCase c

def char (c : Char) : CharSet := range c c

def ofRanges (ranges : List (Char × Char)) : CharSet :=
  ranges.foldr (fun r s => either (range r.1 r.2) s) none

/-- The complement, if asked for. -/
def outsideIf (negated : Bool) (s : CharSet) : CharSet := if negated then outside s else s

/-- The classes that are written by name between colons; they hold ASCII characters only. -/
def named? : String → Option CharSet
  | "alnum" => some (ofRanges [('0', '9'), ('A', 'Z'), ('a', 'z')])
  | "alpha" => some (ofRanges [('A', 'Z'), ('a', 'z')])
  | "ascii" => some (range '\x00' '\x7f')
  | "blank" => some (ofRanges [('\t', '\t'), (' ', ' ')])
  | "cntrl" => some (ofRanges [('\x00', '\x1f'), ('\x7f', '\x7f')])
  | "digit" => some (range '0' '9')
  | "graph" => some (range '!' '~')
  | "lower" => some (range 'a' 'z')
  | "print" => some (range ' ' '~')
  | "punct" => some (ofRanges [('!', '/'), (':', '@'), ('[', '\x60'), ('\x7b', '~')])
  | "space" => some (ofRanges [('\t', '\r'), (' ', ' ')])
  | "upper" => some (range 'A' 'Z')
  | "word" => some (ofRanges [('0', '9'), ('A', 'Z'), ('_', '_'), ('a', 'z')])
  | "xdigit" => some (ofRanges [('0', '9'), ('A', 'F'), ('a', 'f')])
  | _ => Option.none

end CharSet
end Reparse.Regex
