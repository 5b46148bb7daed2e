import Reparse.Regex.Basic
/-!
# Reading regular expressions

The notation is cut into pieces first: characters, classes, tests of a place, repetitions and the marks of
groups. Then the pieces are put together under the flags that hold where they stand.
-/
namespace Reparse.Regex

inductive Flag where
  | ignoreCase
  | multiLine
  | dotAll
  /-- Lets repetitions prefer to be short, which decides nothing about whether there is a match. -/
  | swapGreed
  deriving DecidableEq, Repr

inductive Piece where
  | char (c : Char)
  | set (s : CharSet)
  | place (p : Place)
  | dot
  | caret
  | dollar
  | times (least : Nat) (most : Option Nat)
  | bar
  /-- The start of a group under changed flags. -/
  | opening (name : Option String) (changes : List (Flag × Bool))
  | closing
  /-- Changes the flags up to the end of the group. -/
  | flags (changes : List (Flag × Bool))
  deriving Repr

/-! ## Escapes -/

def hexDigit? (c : Char) : Option Nat :=
  if c.isDigit then some (c.toNat - '0'.toNat)
  else if 'a' ≤ c ∧ c ≤ 'f' then some (c.toNat - 'a'.toNat + 10)
  else if 'A' ≤ c ∧ c ≤ 'F' then some (c.toNat - 'A'.toNat + 10)
  else none

def charOfHex? (digits : List Char) : Option Char := do
  let code := (← digits.mapM hexDigit?).foldl (fun n d => 16 * n + d) 0
  if code.isValidChar then some (Char.ofNat code) else none

/-- A character by its code: `width` digits, or any number of them in braces. -/
def hexChar? (width : Nat) (cs : List Char) : Option (Char × List Char) :=
  match cs with
  | '\x7b' :: cs =>
    let digits := cs.takeWhile (· != '\x7d')
    match cs.drop digits.length with
    | _ :: rest => if digits.isEmpty then none else return (← charOfHex? digits, rest)
    | [] => none
  | cs =>
    if cs.length < width then none else return (← charOfHex? (cs.take width), cs.drop width)

/-- Characters that have a meaning of their own somewhere in the notation. -/
def isMeta (c : Char) : Bool := "\\.+*?()|[]\x7b\x7d^$#&-~".toList.contains c

/-- A piece after a backslash. -/
def escape? : List Char → Option (Piece × List Char)
  | [] => none
  | c :: cs =>
    match c with
    | 'x' => (hexChar? 2 cs).map fun (c, rest) => (.char c, rest)
    | 'u' => (hexChar? 4 cs).map fun (c, rest) => (.char c, rest)
    | 'U' => (hexChar? 8 cs).map fun (c, rest) => (.char c, rest)
    | 'd' => some (.set .digit, cs)
    | 'D' => some (.set (.outside .digit), cs)
    | 'w' => some (.set .word, cs)
    | 'W' => some (.set (.outside .word), cs)
    | 's' => some (.set .space, cs)
    | 'S' => some (.set (.outside .space), cs)
    | 'a' => some (.char '\x07', cs)
    | 'f' => some (.char '\x0c', cs)
    | 't' => some (.char '\t', cs)
    | 'n' => some (.char '\n', cs)
    | 'r' => some (.char '\r', cs)
    | 'v' => some (.char '\x0b', cs)
    | 'A' => some (.place .textStart, cs)
    | 'z' => some (.place .textEnd, cs)
    | 'b' => some (.place .wordEdge, cs)
    | 'B' => some (.place .noWordEdge, cs)
    | c =>
      if isMeta c || (c.toNat < 128 && !c.isAlphanum && c != '<' && c != '>') then some (.char c, cs)
      else none

/-! ## Classes in brackets -/

inductive SetOperation where
  | both
  | minus
  | exactlyOne

def SetOperation.apply : SetOperation → CharSet → CharSet → CharSet
  | both, a, b => .both (.cased a) (.cased b)
  | minus, a, b => .minus (.cased a) (.cased b)
  | exactlyOne, a, b => .exactlyOne (.cased a) (.cased b)

/-- A class that is not closed yet: the items since the last operation, and that operation with its left
side. Operations are worked off from left to right. -/
structure OpenClass where
  negated : Bool
  items : CharSet
  pending : Option (CharSet × SetOperation) := none

namespace OpenClass

def add (k : OpenClass) (s : CharSet) : OpenClass := { k with items := .either k.items s }

def value (k : OpenClass) : CharSet :=
  match k.pending with
  | some (left, op) => op.apply left k.items
  | none => k.items

def operate (k : OpenClass) (op : SetOperation) : OpenClass :=
  { k with items := .none, pending := some (k.value, op) }

def close (k : OpenClass) : CharSet := .outsideIf k.negated (.cased k.value)

/-- What stands at the start of a class: the negation, hyphens, or else a bracket that is an item. -/
def ofStart (cs : List Char) : OpenClass × List Char :=
  let (negated, cs) := match cs with
    | '^' :: cs => (true, cs)
    | cs => (false, cs)
  let hyphens := cs.takeWhile (· = '-')
  let cs := cs.drop hyphens.length
  if hyphens.isEmpty then
    match cs with
    | ']' :: cs => (⟨negated, .char ']', none⟩, cs)
    | cs => (⟨negated, .none, none⟩, cs)
  else (⟨negated, .char '-', none⟩, cs)

end OpenClass

/-- A class that is written by name, after its opening bracket. -/
def namedClass? : List Char → Option (CharSet × List Char)
  | ':' :: cs => do
    let (negated, cs) := match cs with
      | '^' :: cs => (true, cs)
      | cs => (false, cs)
    let name := cs.takeWhile (· != ':')
    match cs.drop name.length with
    | ':' :: ']' :: rest => return (.outsideIf negated (← CharSet.named? (String.ofList name)), rest)
    | _ => none
  | _ => none

/-- A character or a set that stands for itself in a class. -/
def classAtom? : List Char → Option (Piece × List Char)
  | '\\' :: cs => escape? cs
  | c :: cs => some (.char c, cs)
  | [] => none

/-- An item of a class: a range, a character or a set. -/
def classItem? (cs : List Char) : Option (CharSet × List Char) := do
  let (first, rest) ← classAtom? cs
  let isRange := match rest with
    | '-' :: ']' :: _ => false
    | '-' :: '-' :: _ => false
    | '-' :: _ => true
    | _ => false
  if isRange then
    match first, ← classAtom? rest.tail with
    | .char a, (.char b, rest) => if a ≤ b then some (.range a b, rest) else none
    | _, _ => none
  else
    match first with
    | .char c => some (.char c, rest)
    | .set s => some (s, rest)
    | _ => none

/-- Reads a class to its end, `outer` being the classes around the open one, the nearest first. -/
def classRest? (k : OpenClass) (outer : List OpenClass) (cs : List Char) : Option (CharSet × List Char) :=
  match cs with
  | [] => none
  | ']' :: rest =>
    match outer with
    | [] => some (k.close, rest)
    | up :: outer => classRest? (up.add k.close) outer rest
  | '[' :: rest =>
    match namedClass? rest with
    | some (s, after) => if _h : after.length ≤ rest.length then classRest? (k.add s) outer after else none
    | none =>
      let (inner, after) := OpenClass.ofStart rest
      if _h : after.length ≤ rest.length then classRest? inner (k :: outer) after else none
  | '&' :: '&' :: rest => classRest? (k.operate .both) outer rest
  | '-' :: '-' :: rest => classRest? (k.operate .minus) outer rest
  | '~' :: '~' :: rest => classRest? (k.operate .exactlyOne) outer rest
  | c :: rest =>
    match classItem? (c :: rest) with
    | some (s, after) => if _h : after.length ≤ rest.length then classRest? (k.add s) outer after else none
    | none => none
termination_by cs.length

/-- A class after its opening bracket. -/
def class? (cs : List Char) : Option (CharSet × List Char) :=
  let (k, rest) := OpenClass.ofStart cs
  classRest? k [] rest

/-! ## Repetitions and groups -/

/-- A number with blanks around it, and what follows. -/
def number? (cs : List Char) : Option Nat × List Char :=
  let cs := cs.dropWhile isWhiteSpace
  let digits := cs.takeWhile Char.isDigit
  let rest := (cs.drop digits.length).dropWhile isWhiteSpace
  (if digits.isEmpty then none else some (digits.foldl (fun n d => 10 * n + (d.toNat - '0'.toNat)) 0), rest)

/-- The largest count of a repetition. -/
def maxCount : Nat := 0xFFFFFFFF

/-- Counts after an opening brace. -/
def counts? (cs : List Char) : Option (Nat × Option Nat × List Char) := do
  let (least, rest) := number? cs
  let least ← least
  if maxCount < least then none
  match rest with
  | '\x7d' :: rest => some (least, some least, rest)
  | ',' :: '\x7d' :: rest => some (least, none, rest)
  | ',' :: rest =>
    let (most, rest) := number? rest
    let most ← most
    if maxCount < most ∨ most < least then none
    match rest with
    | '\x7d' :: rest => some (least, some most, rest)
    | _ => none
  | _ => none

/-- Passes over the mark that makes a repetition prefer to be short. -/
def skipLazy : List Char → List Char
  | '?' :: cs => cs
  | cs => cs

def flag? : Char → Option Flag
  | 'i' => some .ignoreCase
  | 'm' => some .multiLine
  | 's' => some .dotAll
  | 'U' => some .swapGreed
  | _ => none

/-- Flags, no one twice, those after a hyphen being taken away. -/
def changes? (value : Bool) (found : List (Flag × Bool)) : List Char → Option (List (Flag × Bool))
  | [] => some found
  | '-' :: rest => if value && !rest.isEmpty then changes? false found rest else none
  | c :: rest => do
    let flag ← flag? c
    if found.any (·.1 = flag) then none else changes? value (found ++ [(flag, value)]) rest

/-- Whether a character may stand in the name of a group. -/
def isGroupName (name : List Char) : Bool :=
  match name with
  | [] => false
  | c :: rest =>
    (c = '_' || c.isAlpha) && rest.all fun c => c.isAlphanum || "_.[]".toList.contains c

/-- What follows the opening of a group. -/
def group? (cs : List Char) : Option (Piece × List Char) :=
  match cs with
  | '?' :: 'P' :: '<' :: cs => named cs
  | '?' :: '<' :: cs => named cs
  | '?' :: cs => do
    let marks := cs.takeWhile fun c => c != ':' && c != ')'
    let changes ← changes? true [] marks
    match cs.drop marks.length with
    | ':' :: rest => some (.opening none changes, rest)
    | ')' :: rest => if changes.isEmpty then none else some (.flags changes, rest)
    | _ => none
  | cs => some (.opening none [], cs)
where
  named (cs : List Char) : Option (Piece × List Char) :=
    let name := cs.takeWhile (· != '>')
    match cs.drop name.length with
    | _ :: rest => if isGroupName name then some (.opening (some (String.ofList name)) [], rest) else none
    | [] => none

def piece? (c : Char) (cs : List Char) : Option (Piece × List Char) :=
  match c with
  | '\\' => escape? cs
  | '.' => some (.dot, cs)
  | '^' => some (.caret, cs)
  | '$' => some (.dollar, cs)
  | '*' => some (.times 0 none, skipLazy cs)
  | '+' => some (.times 1 none, skipLazy cs)
  | '?' => some (.times 0 (some 1), skipLazy cs)
  | '\x7b' => (counts? cs).map fun (least, most, rest) => (.times least most, skipLazy rest)
  | '|' => some (.bar, cs)
  | '(' => group? cs
  | ')' => some (.closing, cs)
  | '[' => (class? cs).map fun (s, rest) => (.set s, rest)
  | c => some (.char c, cs)

/-- Cuts the notation into pieces. -/
def pieces? (cs : List Char) : Option (List Piece) :=
  match cs with
  | [] => some []
  | c :: rest =>
    match piece? c rest with
    | none => none
    | some (piece, after) =>
      if _h : after.length ≤ rest.length then (pieces? after).map (piece :: ·) else none
termination_by cs.length

/-! ## Putting the pieces together -/

structure Flags where
  ignoreCase : Bool := false
  multiLine : Bool := false
  dotAll : Bool := false

def Flags.change (f : Flags) : Flag × Bool → Flags
  | (.ignoreCase, value) => { f with ignoreCase := value }
  | (.multiLine, value) => { f with multiLine := value }
  | (.dotAll, value) => { f with dotAll := value }
  | (.swapGreed, _) => f

/-- The atom that a piece stands for under the flags. -/
def Flags.atom? (f : Flags) : Piece → Option Atom
  | .char c => some (.one f.ignoreCase (.cased (.char c)))
  | .set s => some (.one f.ignoreCase s)
  | .place p => some (.place p)
  | .dot => some (.one false (.outside (if f.dotAll then .none else .char '\n')))
  | .caret => some (.place (if f.multiLine then .lineStart else .textStart))
  | .dollar => some (.place (if f.multiLine then .lineEnd else .textEnd))
  | _ => none

/-- A group that is not closed yet. -/
structure OpenGroup where
  flags : Flags
  /-- The alternatives before the current one. -/
  earlier : Option (Regex Atom) := none
  /-- The parts of the current alternative, the latest first; none stands for a change of flags. -/
  parts : List (Option (Regex Atom)) := []

namespace OpenGroup

def add (g : OpenGroup) (r : Regex Atom) : OpenGroup := { g with parts := some r :: g.parts }

def value (g : OpenGroup) : Regex Atom :=
  let last := ofSeq (g.parts.reverse.filterMap id)
  match g.earlier with
  | some earlier => .alt earlier last
  | none => last

end OpenGroup

/-- Puts pieces together below the open group `g`; `outer` are the groups around it, the nearest first,
and `names` the names that groups have. -/
def assemble? (names : List String) (g : OpenGroup) (outer : List OpenGroup) :
    List Piece → Option (Regex Atom)
  | [] => if outer.isEmpty then some g.value else none
  | .times least most :: rest =>
    match g.parts with
    | some r :: parts =>
      assemble? names { g with parts := some (.times least most r) :: parts } outer rest
    | _ => none
  | .bar :: rest => assemble? names { g with earlier := some g.value, parts := [] } outer rest
  | .opening name changes :: rest =>
    if name.any names.contains then none
    else assemble? (name.toList ++ names) { flags := changes.foldl Flags.change g.flags } (g :: outer) rest
  | .closing :: rest =>
    match outer with
    | up :: outer => assemble? names (up.add g.value) outer rest
    | [] => none
  | .flags changes :: rest =>
    assemble? names { g with flags := changes.foldl Flags.change g.flags, parts := none :: g.parts }
      outer rest
  | piece :: rest =>
    match g.flags.atom? piece with
    | some a => assemble? names (g.add (.atom a)) outer rest
    | none => none

/-- The expression that `text` notes, if it is well formed. -/
def read? (text : String) : Option (Regex Atom) := do
  assemble? [] { flags := {} } [] (← pieces? text.toList)

end Reparse.Regex
