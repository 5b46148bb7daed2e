import Reparse.Language
/-!
# Subtrees

A subtree knows its size but not its position: the starts of its children are relative to its own. An
untouched subtree can therefore be part of the trees before and after an edit. Its identity tells such
a shared subtree from an equal one built anew.
-/
namespace Reparse

/-- Tells the subtrees that were built from one another. -/
abbrev NodeId := Nat

/-- What a subtree records beside its children. -/
structure NodeInfo where
  id : NodeId
  symbol : Symbol
  size : Nat
  /-- Bytes past the end that had a say in how the subtree was built. -/
  lookahead : Nat
  state : StateId
  production : ProductionId
  /-- Stands between structural children: white space, comments, skipped input. -/
  extra : Bool
  /-- A zero-width token that the source lacks. -/
  missing : Bool
  /-- The node itself is an error. -/
  error : Bool
  /-- The node or one below it is an error or missing. -/
  hasError : Bool
  /-- Touched by an edit since it was parsed. -/
  hasChanges : Bool
  /-- Holds a token of the external scanner. -/
  hasScanned : Bool
  /-- Start of each child relative to this node. -/
  offsets : List Nat
  /-- Nodes in the subtree, itself included. -/
  descendants : Nat
  /-- Visible nodes strictly below. -/
  visibleDescendants : Nat
  visibleChildren : Nat
  namedChildren : Nat
  /-- Symbol and lex mode of the first leaf. -/
  firstSymbol : Symbol
  firstMode : LexModeId
  /-- The scanner's state after its last token in the subtree. -/
  scannerState : Option (List UInt8)
  deriving DecidableEq, Repr

inductive Subtree where
  | node (info : NodeInfo) (children : List Subtree)
  deriving Repr

namespace Subtree

def info : Subtree → NodeInfo
  | node info _ => info

def children : Subtree → List Subtree
  | node _ children => children

def id (s : Subtree) : NodeId := s.info.id
def symbol (s : Subtree) : Symbol := s.info.symbol
def size (s : Subtree) : Nat := s.info.size
def lookahead (s : Subtree) : Nat := s.info.lookahead
def isExtra (s : Subtree) : Bool := s.info.extra
def isMissing (s : Subtree) : Bool := s.info.missing
def isError (s : Subtree) : Bool := s.info.error
def hasError (s : Subtree) : Bool := s.info.hasError
def hasChanges (s : Subtree) : Bool := s.info.hasChanges
def isLeaf (s : Subtree) : Bool := s.children.isEmpty

instance : Inhabited Subtree where
  default := node {
    id := 0, symbol := .error, size := 0, lookahead := 0, state := 0, production := noProduction
    extra := false, missing := false, error := true, hasError := true, hasChanges := false
    hasScanned := false, offsets := [], descendants := 1, visibleDescendants := 0
    visibleChildren := 0, namedChildren := 0, firstSymbol := .error, firstMode := errorLexMode
    scannerState := none } []

/-- Whether two handles are of one node. -/
def same (a b : Subtree) : Bool := a.id == b.id

/-- Children with their starts, the node itself starting at `start`. -/
def positioned (s : Subtree) (start : Nat) : List (Nat × Subtree) :=
  (s.info.offsets.map (start + ·)).zip s.children

/-- Changes what the node records. -/
def update (s : Subtree) (f : NodeInfo → NodeInfo) : Subtree := node (f s.info) s.children

/-! ## Leaves -/

/-- What a leaf records; it has no children to count. -/
def leafInfo (id : NodeId) (symbol : Symbol) (size lookahead : Nat) (state : StateId) (mode : LexModeId) :
    NodeInfo where
  id := id
  symbol := symbol
  size := size
  lookahead := lookahead
  state := state
  production := noProduction
  extra := false
  missing := false
  error := false
  hasError := false
  hasChanges := false
  hasScanned := false
  offsets := []
  descendants := 1
  visibleDescendants := 0
  visibleChildren := 0
  namedChildren := 0
  firstSymbol := symbol
  firstMode := mode
  scannerState := none

/-- A token. -/
def leaf (l : Language) (id : NodeId) (symbol : Symbol) (size lookahead : Nat) (state : StateId)
    (mode : LexModeId) (scannerState : Option (List UInt8)) : Subtree :=
  node {
    leafInfo id symbol size lookahead state mode with
    extra := l.isExtra symbol
    hasScanned := scannerState.isSome
    scannerState } []

/-- Input that no token matches. -/
def errorLeaf (id : NodeId) (size lookahead : Nat) (state : StateId) (mode : LexModeId) : Subtree :=
  node {
    leafInfo id .error size lookahead state mode with
    extra := true
    error := true
    hasError := true } []

/-- A zero-width token that the source lacks. -/
def missingLeaf (id : NodeId) (symbol : Symbol) (state : StateId) (mode : LexModeId) : Subtree :=
  node {
    leafInfo id symbol 0 0 state mode with
    missing := true
    hasError := true } []

/-! ## Interior nodes -/

/-- The sum of what comes before each element, from `start` on. -/
def runningSums (start : Nat) : List Nat → List Nat
  | [] => []
  | n :: rest => start :: runningSums (start + n) rest

/-- The furthest offset that any child depends on, the first one starting at `start`. -/
def furthestFrom (start : Nat) : List Subtree → Nat
  | [] => 0
  | c :: rest => max (start + c.size + c.lookahead) (furthestFrom (start + c.size) rest)

/-- What `f` counts at the children together. -/
def totalOf (f : Subtree → Nat) (children : List Subtree) : Nat := children.foldr (fun c n => f c + n) 0

/-- Visible nodes that a child shows: itself, or what is visible below it. -/
def shownBelow (l : Language) (c : Subtree) : Nat :=
  c.info.visibleDescendants + if l.isVisible c.symbol then 1 else 0

def shownChildren (l : Language) (c : Subtree) : Nat :=
  if l.isVisible c.symbol then 1 else c.info.visibleChildren

def shownNamed (l : Language) (c : Subtree) : Nat :=
  if l.isVisible c.symbol then if l.isNamed c.symbol then 1 else 0 else c.info.namedChildren

/-- The scanner's state after the last of its tokens. -/
def lastScannerState (children : List Subtree) : Option (List UInt8) :=
  (children.reverse.find? fun c => c.info.hasScanned).bind fun c => c.info.scannerState

/-- A node over `children`. Its size, its counts and its flags are theirs. -/
def ofChildren (l : Language) (id : NodeId) (symbol : Symbol) (children : List Subtree)
    (production : ProductionId) (state : StateId) : Subtree :=
  let total := totalOf size children
  let first := children.head?.map info
  node {
    id, symbol
    size := total
    lookahead := furthestFrom 0 children - total
    state, production
    extra := false
    missing := false
    error := symbol.isError
    hasError := symbol.isError || children.any hasError
    hasChanges := children.any hasChanges
    hasScanned := children.any fun c => c.info.hasScanned
    offsets := runningSums 0 (children.map size)
    descendants := 1 + totalOf (fun c => c.info.descendants) children
    visibleDescendants := totalOf (shownBelow l) children
    visibleChildren := totalOf (shownChildren l) children
    namedChildren := totalOf (shownNamed l) children
    firstSymbol := (first.map (·.firstSymbol)).getD symbol
    firstMode := (first.map (·.firstMode)).getD (l.lexModeId state)
    scannerState := lastScannerState children } children

/-- An error over skipped or discarded input. -/
def errorNode (l : Language) (id : NodeId) (children : List Subtree) (state : StateId) : Subtree :=
  (ofChildren l id .error children noProduction state).update fun info => { info with extra := true }

/-- Extends the lookahead to at least `bytes`. -/
def withLookahead (s : Subtree) (bytes : Nat) : Subtree :=
  s.update fun info => { info with lookahead := max info.lookahead bytes }

/-! ## Edges -/

/-- Whether a node matters when the edge of its parent is looked at: extras without errors do not. -/
def isFacing (s : Subtree) : Bool := !s.isExtra || s.hasError

mutual

/-- Whether an error or a missing token stands at the start. -/
def errorAtStart : Subtree → Bool
  | node info children => info.error || info.missing || (info.hasError && errorAtFirst children)

def errorAtFirst : List Subtree → Bool
  | [] => false
  | c :: rest => if c.isFacing then errorAtStart c else errorAtFirst rest

end

mutual

/-- Whether an error or a missing token stands at the end. -/
def errorAtEnd : Subtree → Bool
  | node info children =>
    info.error || info.missing || (info.hasError && (errorAtLast children).getD false)

/-- The answer for the last child that matters, if one does. -/
def errorAtLast : List Subtree → Option Bool
  | [] => none
  | c :: rest =>
    match errorAtLast rest with
    | some answer => some answer
    | none => if c.isFacing then some (errorAtEnd c) else none

end

/-! ## Walks -/

mutual

/-- All nodes with their depths and starts, each before its children. -/
def rows (depth start : Nat) : Subtree → List (Nat × Nat × Subtree)
  | node info children =>
    (depth, start, node info children) :: rowsAmong (depth + 1) start info.offsets children

def rowsAmong (depth start : Nat) : List Nat → List Subtree → List (Nat × Nat × Subtree)
  | offset :: offsets, c :: rest =>
    rows depth (start + offset) c ++ rowsAmong depth start offsets rest
  | _, _ => []

end

mutual

/-- How many levels the tree has. -/
def levels : Subtree → Nat
  | node _ children => 1 + levelsAmong children

def levelsAmong : List Subtree → Nat
  | [] => 0
  | c :: rest => max (levels c) (levelsAmong rest)

end

/-- Size and lookahead of the first leaf. -/
def firstLeafExtent : Subtree → Nat
  | node info [] => info.size + info.lookahead
  | node _ (c :: _) => firstLeafExtent c

end Subtree
end Reparse
