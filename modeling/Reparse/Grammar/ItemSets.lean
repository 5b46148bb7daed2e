import Reparse.Grammar.Lowered
/-!
# Item sets

The states of a grammar's automaton are sets of productions with a dot. A state is found by its kernel,
sorted and without repetitions; states are numbered breadth first, each one's successors in the order
of their symbols.
-/
namespace Reparse

/-- A production with a dot in its right-hand side. The production past the last one is the start rule. -/
structure LrItem where
  production : Nat
  dot : Nat
  deriving DecidableEq, Repr

namespace LrItem

def le (a b : LrItem) : Bool :=
  a.production < b.production || (a.production == b.production && a.dot ≤ b.dot)

/-- With the dot one symbol further. -/
def advance (item : LrItem) : LrItem := { item with dot := item.dot + 1 }

end LrItem

namespace LoweredGrammar

/-- The rule that derives the start symbol alone. -/
def startRule (g : LoweredGrammar) : Nat := g.productions.size

def rhs (g : LoweredGrammar) (production : Nat) : List Symbol :=
  if production = g.startRule then [g.start]
  else ((g.productions[production]?).map (·.rhs)).getD []

/-- The symbol after the dot. -/
def next? (g : LoweredGrammar) (item : LrItem) : Option Symbol := (g.rhs item.production)[item.dot]?

/-- The productions of a symbol, with the dot at the start. -/
def initialItems (g : LoweredGrammar) (s : Symbol) : List LrItem :=
  (g.productions.toList.zipIdx.filter fun (p, _) => p.lhs == s).map fun (_, i) => ⟨i, 0⟩

/-- Appends the productions of each nonterminal that comes to stand after a dot, in order. `fuel` bounds
the number of items; no production is added twice. -/
def closeItems (g : LoweredGrammar) : Nat → (expanded : List Symbol) → List LrItem → List LrItem
  | 0, _, items => items
  | _, _, [] => []
  | fuel + 1, expanded, item :: rest =>
    match g.next? item with
    | some s =>
      if g.isTerminal s || expanded.contains s then item :: g.closeItems fuel expanded rest
      else item :: g.closeItems fuel (s :: expanded) (rest ++ g.initialItems s)
    | none => item :: g.closeItems fuel expanded rest

def closure (g : LoweredGrammar) (kernel : List LrItem) : List LrItem :=
  g.closeItems (kernel.length + g.productions.size) [] kernel

/-- The kernel reached from a closed item set by one symbol. -/
def kernelAfter (g : LoweredGrammar) (items : List LrItem) (s : Symbol) : List LrItem :=
  ((items.filter fun item => g.next? item == some s).map LrItem.advance).mergeSort LrItem.le |>.eraseDups

/-- The symbols after a dot, in order. -/
def nextSymbols (g : LoweredGrammar) (items : List LrItem) : List Symbol :=
  (items.filterMap g.next?).eraseDups.mergeSort fun a b => a.id ≤ b.id

/-- A state: its closed item set and the states that follow it. -/
structure ItemState where
  items : List LrItem
  edges : List (Symbol × StateId)
  deriving DecidableEq, Repr

/-- States from this number on would meet reserved numbers. -/
def maxStates : Nat := 65534

/-- The states reached by `symbols`, new kernels being numbered after the known ones. -/
def edgesFrom (g : LoweredGrammar) (items : List LrItem) :
    List Symbol → Array (List LrItem) → Except BuildError (List (Symbol × StateId) × Array (List LrItem))
  | [], kernels => .ok ([], kernels)
  | s :: rest, kernels => do
    let kernel := g.kernelAfter items s
    let (target, kernels) ← match kernels.idxOf? kernel with
      | some id => pure (id, kernels)
      | none =>
        if maxStates ≤ kernels.size then throw (.tooManyStates maxStates)
        else pure (kernels.size, kernels.push kernel)
    let (edges, kernels) ← g.edgesFrom items rest kernels
    pure ((s, target.toUInt16) :: edges, kernels)

/-- Completes the states for the kernels from `index` on. -/
def statesFrom (g : LoweredGrammar) :
    Nat → Nat → Array (List LrItem) → Array ItemState → Except BuildError (Array ItemState)
  | 0, _, _, states => .ok states
  | fuel + 1, index, kernels, states =>
    match kernels[index]? with
    | none => .ok states
    | some kernel => do
      let items := g.closure kernel
      let (edges, kernels) ← g.edgesFrom items (g.nextSymbols items) kernels
      g.statesFrom fuel (index + 1) kernels (states.push ⟨items, edges⟩)

/-- All states, the start rule's first. -/
def itemStates (g : LoweredGrammar) : Except BuildError (Array ItemState) :=
  g.statesFrom (maxStates + 1) 0 #[[⟨g.startRule, 0⟩]] #[]

end LoweredGrammar
end Reparse
