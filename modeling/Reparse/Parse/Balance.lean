import Reparse.Tree.Subtree
/-!
# Balancing repetitions

A repetition is built as a chain that leans to the left, one level per item. Chains of fresh nodes are
flattened into their items and built anew, split by weight, so that a long list is not deep. Nodes
that are not fresh are left alone, with all below them.
-/
namespace Reparse

/-- The items of a flattened chain with the extras around them. -/
structure Chain where
  leading : List Subtree
  items : Array Subtree
  /-- Extras between an item and the next one. -/
  gaps : Array (List Subtree)
  trailing : List Subtree

namespace Chain

/-- Adds the next piece of a chain: an item or an extra. -/
def add (c : Chain) (piece : Subtree) : Chain :=
  if piece.isExtra then
    if c.items.isEmpty then { c with leading := c.leading ++ [piece] }
    else { c with trailing := c.trailing ++ [piece] }
  else if c.items.isEmpty then { c with items := #[piece] }
  else { c with items := c.items.push piece, gaps := c.gaps.push c.trailing, trailing := [] }

def ofPieces (pieces : List Subtree) : Chain := pieces.foldl add ⟨[], #[], #[], []⟩

/-- Sums of the weights of the first items, for every number of items. -/
def weights (items : List Subtree) : Array Nat :=
  (items.foldl (fun (sums, total) item =>
    let total := total + item.info.descendants
    (sums.push total, total)) (#[0], 0)).1

/-- The first index from `split` on with half the weight before it, at most `hi - 1`. -/
def splitFrom (weights : Array Nat) (lo hi split : Nat) : Nat :=
  let weight (i : Nat) : Nat := (weights[i]?).getD 0
  if h : split + 1 < hi ∧ (weight split - weight lo) * 2 < weight hi - weight lo then
    splitFrom weights lo hi (split + 1)
  else split
termination_by hi - split

theorem splitFrom_bounds (weights : Array Nat) (lo : Nat) {hi split : Nat} (h : split < hi) :
    split ≤ splitFrom weights lo hi split ∧ splitFrom weights lo hi split < hi := by
  fun_induction splitFrom weights lo hi split with
  | case1 split weight hMore ih =>
    have := ih hMore.1
    omega
  | case2 split weight hDone => exact ⟨Nat.le_refl _, h⟩

/-- What the new nodes of a chain have in common. -/
structure Maker where
  language : Language
  symbol : Symbol
  production : ProductionId

/-- The items from `lo` to `hi` under repetition nodes, numbered from `id` on. -/
def build (m : Maker) (c : Chain) (weights : Array Nat) (lo hi : Nat) (leading trailing : List Subtree)
    (id : NodeId) : Subtree × NodeId :=
  let first := (c.items[lo]?).getD default
  if h : lo + 1 < hi then
    let split := splitFrom weights lo hi (lo + 1)
    have := splitFrom_bounds weights lo h
    let (left, id) := build m c weights lo split [] [] id
    let (right, id) := build m c weights split hi [] [] id
    let between := (c.gaps[split - 1]?).getD []
    let children := leading ++ [left] ++ between ++ [right] ++ trailing
    (.ofChildren m.language id m.symbol children m.production first.info.state, id + 1)
  else (first, id)
termination_by hi - lo

end Chain

namespace Subtree

/-- What balancing needs to know: the language, and which nodes are fresh. -/
structure Balancing where
  language : Language
  fresh : NodeId → Bool

/-- A fresh node built by the rule `R -> R R`. -/
def Balancing.isLink (b : Balancing) (info : NodeInfo) : Bool :=
  b.fresh info.id && b.language.table.binaryRepeat info.symbol == some info.production

/-- The node over new children. -/
def rebuild (l : Language) (info : NodeInfo) (id : NodeId) (children : List Subtree) : Subtree :=
  let s := (ofChildren l id info.symbol children info.production info.state).withLookahead info.lookahead
  s.update fun new => { new with extra := info.extra }

/-- A chain under repetition nodes; a chain of fewer than two items stays as it is. -/
def rebuildChain (l : Language) (info : NodeInfo) (children pieces : List Subtree) (id : NodeId) :
    Subtree × NodeId :=
  let chain := Chain.ofPieces pieces
  if chain.items.size < 2 then (node info children, id)
  else
    let weights := Chain.weights chain.items.toList
    let (top, id) := chain.build ⟨l, info.symbol, info.production⟩ weights 0 chain.items.size
      chain.leading chain.trailing id
    (top.withLookahead info.lookahead, id)

mutual

/-- Balances the fresh chains at and below a node. New nodes are numbered from `id` on. -/
def balanced (b : Balancing) (id : NodeId) : Subtree → Subtree × NodeId
  | node info children =>
    if children.isEmpty || !b.fresh info.id then (node info children, id)
    else if b.isLink info then
      let (pieces, id) := chainPieces b info.symbol id children
      rebuildChain b.language info children pieces id
    else
      let (new, id) := balancedAll b id children
      if (new.zip children).all fun (new, old) => new.same old then (node info children, id)
      else (rebuild b.language info id new, id + 1)

def balancedAll (b : Balancing) (id : NodeId) : List Subtree → List Subtree × NodeId
  | [] => ([], id)
  | c :: rest =>
    let (c, id) := balanced b id c
    let (rest, id) := balancedAll b id rest
    (c :: rest, id)

/-- The pieces of a chain of `symbol`, in order: what its links hold beside further links, balanced. -/
def chainPieces (b : Balancing) (symbol : Symbol) (id : NodeId) : List Subtree → List Subtree × NodeId
  | [] => ([], id)
  | node info children :: rest =>
    let (pieces, id) :=
      if info.symbol = symbol ∧ b.isLink info then chainPieces b symbol id children
      else
        let (s, id) := balanced b id (node info children)
        ([s], id)
    let (others, id) := chainPieces b symbol id rest
    (pieces ++ others, id)

end

end Subtree
end Reparse
