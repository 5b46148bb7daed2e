import Reparse.Proofs.Grammar.Recognition
/-!
# Driving a table with trees

`Table.advance?` makes the next move of `Table.Moves` and keeps, beside each state but the first, the tree
of the symbol that led into it. A reduction puts the trees of its right-hand side under one node. Since the
next move is computed, a word has at most one tree, and the tree has the word as its leaves.
-/
namespace Reparse

/-- A terminal that was read, or a production over the trees of its right-hand side. -/
inductive ParseTree where
  | leaf (s : Symbol)
  | node (id : ProductionId) (children : List ParseTree)

namespace ParseTree

mutual

/-- The terminals of a tree, in order. -/
def leaves : ParseTree → List Symbol
  | leaf s => [s]
  | node _ children => leavesOf children

/-- The terminals of some trees side by side. -/
def leavesOf : List ParseTree → List Symbol
  | [] => []
  | tree :: rest => tree.leaves ++ leavesOf rest

end

@[simp] theorem leavesOf_append (a b : List ParseTree) : leavesOf (a ++ b) = leavesOf a ++ leavesOf b := by
  induction a with
  | nil => rfl
  | cons tree rest ih => simp [leavesOf, ih]

end ParseTree

/-- A stack of states and the trees between them, the last ones first, before the symbols to be read. -/
structure Drive where
  states : List StateId
  trees : List ParseTree
  rest : List Symbol

namespace Table

variable {t : Table}

/-- The next move, if the table has one that is not the accepting action. -/
def advance? (t : Table) (d : Drive) : Option Drive :=
  match d.rest with
  | [] => none
  | s :: rest =>
    match t.action (d.states.headD 0) s with
    | some (.shift next) => some ⟨next :: d.states, .leaf s :: d.trees, rest⟩
    | some (.reduce id) =>
      let p := t.production id
      let count := p.childCount.toNat
      let below := RecoveryContext.popStates d.states count
      (t.goto (below.headD 0) p.lhs).map fun next =>
        ⟨next :: below, .node id (d.trees.take count).reverse :: d.trees.drop count, s :: rest⟩
    | _ => none

/-- One move leads from `a` to `b`. -/
def Advances (t : Table) (a b : Drive) : Prop := t.advance? a = some b

/-- Some number of moves. -/
def Runs (t : Table) : Drive → Drive → Prop := Relation.ReflTransGen t.Advances

/-- From state 0 the table reads all of `word`, with `tree` as all that it has built, and accepts before the
end of the input. -/
def Parses (t : Table) (word : List Symbol) (tree : ParseTree) : Prop :=
  ∃ states, t.Runs ⟨[0], [], word ++ [.eof]⟩ ⟨states, [tree], [.eof]⟩ ∧
    t.action (states.headD 0) .eof = some .accept

theorem Advances.shift {states : List StateId} {trees : List ParseTree} {s : Symbol} {rest : List Symbol}
    {next : StateId} (h : t.action (states.headD 0) s = some (.shift next)) :
    t.Advances ⟨states, trees, s :: rest⟩ ⟨next :: states, .leaf s :: trees, rest⟩ := by
  simp only [Advances, advance?, h]

/-- A reduction takes the last trees, as many as the production has children, off a stack that is deep enough. -/
theorem Advances.reduce (above : List StateId) (children : List ParseTree) {below : List StateId}
    {trees : List ParseTree} {s : Symbol} {rest : List Symbol} {id : ProductionId} {q next : StateId}
    (hAction : t.action ((above ++ q :: below).headD 0) s = some (.reduce id))
    (hStates : (t.production id).childCount.toNat = above.length)
    (hTrees : above.length = children.length) (hGoto : t.goto q (t.production id).lhs = some next) :
    t.Advances ⟨above ++ q :: below, children ++ trees, s :: rest⟩
      ⟨next :: q :: below, .node id children.reverse :: trees, s :: rest⟩ := by
  have hBelow : RecoveryContext.popStates (above ++ q :: below) above.length = q :: below := by
    rw [RecoveryContext.popStates, Nat.min_eq_left (by simp), List.drop_left]
  simp only [Advances, advance?, hAction, hStates, hBelow, List.headD_cons, hGoto, Option.map_some]
  rw [hTrees, List.take_left, List.drop_left]

theorem Advances.moves {a b : Drive} (h : t.Advances a b) : t.Moves (a.states, a.rest) (b.states, b.rest) := by
  obtain ⟨states, trees, rest⟩ := a
  simp only [Advances, advance?] at h
  split at h
  · cases h
  next s rest =>
    split at h
    next next hAction =>
      obtain rfl := Option.some.inj h
      exact .shift hAction
    next id hAction =>
      obtain ⟨next, hGoto, rfl⟩ := Option.map_eq_some_iff.mp h
      exact .reduce hAction rfl hGoto
    next => cases h

theorem Runs.moves {a b : Drive} (h : t.Runs a b) :
    Relation.ReflTransGen t.Moves (a.states, a.rest) (b.states, b.rest) :=
  h.lift (fun d => (d.states, d.rest)) fun _ _ => Advances.moves

/-- A move keeps the terminals that were read and those that are to be read in their order. -/
theorem Advances.leaves {a b : Drive} (h : t.Advances a b) :
    ParseTree.leavesOf b.trees.reverse ++ b.rest = ParseTree.leavesOf a.trees.reverse ++ a.rest := by
  obtain ⟨states, trees, rest⟩ := a
  simp only [Advances, advance?] at h
  split at h
  · cases h
  next s rest =>
    split at h
    next =>
      obtain rfl := Option.some.inj h
      simp [ParseTree.leavesOf, ParseTree.leaves]
    next id _ =>
      obtain ⟨next, _, rfl⟩ := Option.map_eq_some_iff.mp h
      -- What goes under the new node stood side by side before.
      have hSplit : trees.reverse = (trees.drop (t.production id).childCount.toNat).reverse
          ++ (trees.take (t.production id).childCount.toNat).reverse := by
        rw [← List.reverse_append, List.take_append_drop]
      rw [hSplit]
      simp [ParseTree.leavesOf, ParseTree.leaves]
    next => cases h

theorem Runs.leaves {a b : Drive} (h : t.Runs a b) :
    ParseTree.leavesOf b.trees.reverse ++ b.rest = ParseTree.leavesOf a.trees.reverse ++ a.rest := by
  induction h with
  | refl => rfl
  | tail _ hStep ih => exact hStep.leaves.trans ih

theorem Parses.accepts {word : List Symbol} {tree : ParseTree} (h : t.Parses word tree) : t.Accepts word := by
  obtain ⟨states, hRuns, hAction⟩ := h
  exact ⟨states, hRuns.moves, hAction⟩

theorem Parses.leaves {word : List Symbol} {tree : ParseTree} (h : t.Parses word tree) : tree.leaves = word := by
  obtain ⟨states, hRuns, _⟩ := h
  have hLeaves := hRuns.leaves
  simpa [ParseTree.leavesOf] using hLeaves

theorem Runs.eq_of_accept {states : List StateId} {trees : List ParseTree} {s : Symbol} {rest : List Symbol}
    {b : Drive} (hAction : t.action (states.headD 0) s = some .accept)
    (h : t.Runs ⟨states, trees, s :: rest⟩ b) : b = ⟨states, trees, s :: rest⟩ := by
  rcases Relation.ReflTransGen.cases_head h with h | ⟨next, hStep, _⟩
  · exact h.symm
  · simp only [Advances, advance?, hAction, reduceCtorEq] at hStep

theorem Parses.unique {word : List Symbol} {a b : ParseTree} (ha : t.Parses word a) (hb : t.Parses word b) :
    a = b := by
  obtain ⟨statesA, hRunsA, hActionA⟩ := ha
  obtain ⟨statesB, hRunsB, hActionB⟩ := hb
  have hUnique : Relator.RightUnique t.Advances := fun _ _ _ h h' => Option.some.inj (h.symm.trans h')
  have hEnds : (⟨statesA, [a], [.eof]⟩ : Drive) = ⟨statesB, [b], [.eof]⟩ := by
    rcases Relation.ReflTransGen.total_of_right_unique hUnique hRunsA hRunsB with h | h
    · exact (Runs.eq_of_accept hActionA h).symm
    · exact Runs.eq_of_accept hActionB h
  have hTrees := congrArg Drive.trees hEnds
  exact (List.cons.inj hTrees).1

end Table
end Reparse
