import Reparse.Regex.CharSet
/-!
# Regular expressions

An expression is searched for in a text by following all its ways at once: a set of places in the text,
held as the bits of a number, is moved on through the expression.
-/
namespace Reparse.Regex

/-- Tests of a place that consume nothing. -/
inductive Place where
  | textStart
  | textEnd
  | lineStart
  | lineEnd
  | wordEdge
  | noWordEdge
  deriving DecidableEq, Repr

inductive Atom where
  /-- One character of the set. -/
  | one (ignoreCase : Bool) (set : CharSet)
  | place (p : Place)
  deriving Repr

end Regex

/-- Expressions over atoms. -/
inductive Regex (α : Type) where
  | empty
  | atom (a : α)
  | seq (a b : Regex α)
  | alt (a b : Regex α)
  /-- From `least` to `most` times, or any number of times from `least` on. -/
  | times (least : Nat) (most : Option Nat) (a : Regex α)
  deriving Repr

namespace Regex

def map {α β : Type} (f : α → β) : Regex α → Regex β
  | empty => empty
  | atom a => atom (f a)
  | seq a b => seq (a.map f) (b.map f)
  | alt a b => alt (a.map f) (b.map f)
  | times least most a => times least most (a.map f)

def ofSeq {α : Type} (parts : List (Regex α)) : Regex α := parts.foldr seq empty

/-! ## Places -/

/-- The number whose bits are `flags`, the first flag being the lowest bit. -/
def bitsOf (flags : List Bool) : Nat := flags.foldr (fun flag bits => 2 * bits + flag.toNat) 0

def Place.holds (before after : Option Char) : Place → Bool
  | textStart => before.isNone
  | textEnd => after.isNone
  | lineStart => before.all (· = '\n')
  | lineEnd => after.all (· = '\n')
  | wordEdge => before.any isWordChar != after.any isWordChar
  | noWordEdge => before.any isWordChar == after.any isWordChar

/-- The places of a text from which an atom leads on, and whether to the next place. -/
structure Move where
  onward : Bool
  places : Nat

def Atom.move (text : List Char) : Atom → Move
  | one ignoreCase set => ⟨true, bitsOf (text.map (set.holds ignoreCase))⟩
  | place p =>
    let around := text.map some
    ⟨false, bitsOf (List.zipWith (fun before after => p.holds before after)
      (none :: around) (around ++ [none]))⟩

def Move.apply (m : Move) (places : Nat) : Nat :=
  let from' := places &&& m.places
  if m.onward then from' <<< 1 else from'

/-- What `f` reaches in `count` steps. -/
def after (f : Nat → Nat) : (count : Nat) → Nat → Nat
  | 0, places => places
  | count + 1, places => after f count (f places)

/-- What `f` reaches in at most `count` steps. -/
def within (f : Nat → Nat) : (count : Nat) → Nat → Nat
  | 0, places => places
  | count + 1, places =>
    let more := places ||| f places
    if more = places then places else within f count more

/-- Where the expression may end if it starts at one of `places`, in a text of `size` characters. -/
def reach (size : Nat) : Regex Move → Nat → Nat
  | empty, places => places
  | atom m, places => m.apply places
  | seq a b, places => reach size b (reach size a places)
  | alt a b, places => reach size a places ||| reach size b places
  | times least most a, places =>
    let count := match most with
      | some most => most - least
      | none => size + 1
    within (reach size a) count (after (reach size a) least places)

/-- Whether the expression occurs anywhere in the text. -/
def occursIn (r : Regex Atom) (text : String) : Bool :=
  let chars := text.toList
  let all := 1 <<< (chars.length + 1) - 1
  reach chars.length (r.map (·.move chars)) all != 0

end Regex
end Reparse
