/-!
# Character classes

A class holds the characters in its ranges, or those outside them if it is negated. Membership bisects
the upper ends, so it is meaningful for sorted and disjoint ranges, which `normalize` produces.
-/
namespace Reparse

/-- A range of characters, both ends included. -/
abbrev CharRange := Char × Char

structure CharClass where
  ranges : Array CharRange
  negated : Bool
  deriving DecidableEq, Repr

namespace CharClass

/-- Bisects `ranges` for the first one whose upper end is not below `c`: `base` is its best lower bound
and `size` the number of ranges from there on that are still in question. -/
def bisect (ranges : Array CharRange) (c : Char) (base size : Nat) : Nat :=
  let below (i : Nat) : Bool := ranges[i]?.any fun r => r.2 < c
  if h : 1 < size then
    let middle := base + size / 2
    bisect ranges c (if below middle then middle else base) (size - size / 2)
  else if size = 0 then base
  else if below base then base + 1 else base
termination_by size
decreasing_by omega

/-- Whether `c` lies in the range that bisection finds. -/
def inRanges (ranges : Array CharRange) (c : Char) : Bool :=
  match ranges[bisect ranges c 0 ranges.size]? with
  | some range => range.1 ≤ c
  | none => false

def contains (cls : CharClass) (c : Char) : Bool := inRanges cls.ranges c != cls.negated

/-- A range with its ends in order. -/
def ordered (r : CharRange) : CharRange := if r.1 ≤ r.2 then r else (r.2, r.1)

/-- By lower, then by upper end. -/
def rangeLe (a b : CharRange) : Bool := a.1 < b.1 || (a.1 == b.1 && a.2 ≤ b.2)

/-- Joins ranges that overlap or are adjacent, `last` being the one under construction. -/
def mergeFrom (last : CharRange) : List CharRange → List CharRange
  | [] => [last]
  | r :: rest =>
    if r.1.toNat ≤ last.2.toNat + 1 then
      mergeFrom (last.1, if last.2 ≤ r.2 then r.2 else last.2) rest
    else last :: mergeFrom r rest

def merge : List CharRange → List CharRange
  | [] => []
  | r :: rest => mergeFrom r rest

/-- The same characters as sorted, disjoint ranges that are not adjacent. -/
def normalize (ranges : List CharRange) : List CharRange :=
  merge ((ranges.map ordered).mergeSort rangeLe)

/-- Ranges in order, each before the next. -/
def isSorted (ranges : List CharRange) : Bool :=
  ranges.all (fun r => r.1 ≤ r.2) && (ranges.zip ranges.tail).all fun (a, b) => a.2 < b.1

/-- The characters in any of `ranges`, given in any order. -/
def ofRanges (ranges : List CharRange) (negated : Bool) : CharClass := ⟨(normalize ranges).toArray, negated⟩

end CharClass
end Reparse
