import Reparse.Grammar.ItemSets
import Reparse.Grammar.Terminals
/-!
# Building a table

A complete item reduces on the terminals that follow its left-hand side. Where an entry is wanted twice,
the accepting action stands; of two reductions the earlier production wins; a repetition `R -> R R` wins
over a shift; otherwise the higher precedence wins, and at equal precedence the production's
associativity decides, a shift unless it is left.
-/
namespace Reparse

namespace LoweredGrammar

/-- The highest precedence among the items that shift `lookahead`. -/
def shiftPrecedence (g : LoweredGrammar) (items : List LrItem) (lookahead : Symbol) : Int :=
  let levels := (items.filter fun item => g.next? item == some lookahead).map fun item =>
    ((g.productions[item.production]?).map (·.precedence)).getD 0
  levels.max?.getD 0

/-- Decides between an entry and a reduction by production `id`. -/
def resolveConflict (g : LoweredGrammar) (items : List LrItem) (lookahead : Symbol) (id : ProductionId)
    (p : LoweredProduction) : Action → Action
  | .accept => .accept
  | .reduce other => .reduce (if other ≤ id then other else id)
  | .shift target =>
    let level := g.shiftPrecedence items lookahead
    if p.binaryRepeat then .reduce id
    else if p.precedence < level then .shift target
    else if level < p.precedence then .reduce id
    else match p.assoc with
      | .left => .reduce id
      | .right | .none => .shift target

/-- The entry after a complete item has had its say. -/
def addReduction (g : LoweredGrammar) (follow : Follow) (items : List LrItem) (lookahead : Symbol)
    (entry : Option Action) (item : LrItem) : Option Action :=
  if item.production = g.startRule then
    if lookahead = .eof then some .accept else entry
  else
    match g.productions[item.production]? with
    | none => entry
    | some p =>
      if (followOf follow p.lhs).has lookahead.index then
        let id := item.production.toUInt16
        match entry with
        | none => some (.reduce id)
        | some action => some (g.resolveConflict items lookahead id p action)
      else entry

/-- The target of an edge. -/
def ItemState.target? (state : ItemState) (s : Symbol) : Option StateId :=
  (state.edges.find? fun edge => edge.1 == s).map (·.2)

/-- The items with the dot at the end. -/
def completeItems (g : LoweredGrammar) (items : List LrItem) : List LrItem :=
  items.filter fun item => (g.next? item).isNone

/-- The entry of a state for a terminal. -/
def actionEntry (g : LoweredGrammar) (follow : Follow) (state : ItemState) (complete : List LrItem)
    (lookahead : Symbol) : Option Action :=
  complete.foldl (g.addReduction follow state.items lookahead) ((state.target? lookahead).map .shift)

def actionRow (g : LoweredGrammar) (follow : Follow) (state : ItemState) : List (Option Action) :=
  let complete := g.completeItems state.items
  (List.range g.tokenCount.toNat).map fun i => g.actionEntry follow state complete (.ofIndex i)

def gotoRow (g : LoweredGrammar) (state : ItemState) : List (Option StateId) :=
  (List.range (g.symbols.size - g.tokenCount.toNat)).map fun i =>
    state.target? (.ofIndex (g.tokenCount.toNat + i))

def toTable (g : LoweredGrammar) (states : Array ItemState) : Table :=
  let follow := g.follow
  { name := g.name
    symbols := g.symbols
    tokenCount := g.tokenCount
    fields := g.fields.toArray
    productions := g.productions.map fun p => ⟨p.lhs, p.rhs.length.toUInt16, p.fields⟩
    stateCount := states.size.toUInt16
    actions := (states.toList.flatMap (g.actionRow follow)).toArray
    gotos := (states.toList.flatMap g.gotoRow).toArray
    lexNodes := g.lexNodes
    tokenLex := g.tokenLex
    extras := g.extras
    externals := g.externals
    start := g.start
    word := g.word }

end LoweredGrammar

namespace Grammar

/-- The table of a grammar. -/
def build (g : Grammar) : Except BuildError Table := do
  let lowered ← g.lower
  let states ← lowered.itemStates
  let table := lowered.toTable states
  match table.validate with
  | .ok () => pure table
  | .error fault => throw (.table (.malformed fault))

/-- The compiled form of a grammar. -/
def compile (g : Grammar) : Except BuildError (List UInt8) := do
  pure (Blob.encode (← g.build))

end Grammar
end Reparse
