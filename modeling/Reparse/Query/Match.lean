import Reparse.Query.Search
import Reparse.Tree.Cursor
/-!
# Matches

A query is run over a node and all below it, in preorder, and at each node over the patterns in their order.
Every pattern matches a node at most once.
-/
namespace Reparse.Query

structure Match where
  pattern : Nat
  captures : List Capture

/-- The nodes of one capture in the order of the match. -/
def Match.nodes (m : Match) (index : Nat) : List Node :=
  (m.captures.filter (·.index == index)).map (·.node)

def defaultLimit : Nat := 10000

/-- How a query is run: with a bound on the steps at a node for a pattern, and where ranges are given, only
at nodes that meet one of them. -/
structure Options where
  ranges : List TextRange := []
  limit : Nat := defaultLimit

/-- The bound is at least one step. -/
def Options.withLimit (o : Options) (limit : Nat) : Options := { o with limit := max limit 1 }

/-- The matches, and whether a search was given up on the way. -/
structure Matches where
  list : List Match
  exceeded : Bool

/-- All captures in order, each with its match and its place there. -/
def Matches.captures (ms : Matches) : List (Match × Nat × Capture) :=
  ms.list.flatMap fun m => m.captures.zipIdx.map fun (c, i) => (m, i, c)

/-- Whether a predicate holds for a solution in a text; all nodes of a capture have to satisfy it. -/
def Predicate.holds (captures : List Capture) (text : String) : Predicate → Bool
  | equal capture value negated =>
    (texts capture).all fun left =>
      let same := match value with
        | .text right => left == right
        | .capture other => (texts other).all (left == ·)
      same != negated
  | occurs capture regex negated => (texts capture).all fun s => regex.occursIn s != negated
where
  texts (index : Nat) : List String :=
    (captures.filter (·.index == index)).map (·.node.textIn text)

namespace Pattern

/-- What the pattern captures at a node, where it matches with its predicates; none if the search is given
up. -/
def solve (p : Pattern) (limit : Nat) (text : String) (n : Node) : Option (Option (List Capture)) :=
  ((solveItems p.items n).run ⟨limit, []⟩).map fun (found, s) =>
    if found && p.predicates.all (·.holds s.captures text) then some s.captures else none

end Pattern

/-- The matches at one node. -/
def matchesAt (q : Query) (limit : Nat) (text : String) (n : Node) : Matches :=
  let outcomes := q.patterns.zipIdx.map fun (p, i) => (p.solve limit text n, i)
  ⟨outcomes.filterMap fun (outcome, i) => outcome.join.map (⟨i, ·⟩),
    outcomes.any fun (outcome, _) => outcome.isNone⟩

/-- Whether the query is for the language of a tree, as far as name and number of symbols tell. -/
def fits (q : Query) (l : Language) : Bool :=
  q.language.table.name == l.table.name && q.language.table.symbols.size == l.table.symbols.size

/-- The matches at a node and below. -/
def matchesIn (q : Query) (o : Options) (n : Node) (text : String) : Matches :=
  if q.fits n.tree.language then
    let found := (Preorder.all n o.ranges).map fun c => q.matchesAt o.limit text c.node
    ⟨found.flatMap (·.list), found.any (·.exceeded)⟩
  else ⟨[], false⟩

end Reparse.Query
