import Reparse.Proofs.Tree.Changes
import Reparse.Proofs.Tree.Views
/-!
# Lookup by range

A lookup goes down from a node to the child that holds the range, found by bisection, and answers the last node on its way
that may be shown. A range that has bytes is held by one child at most, so all nodes that hold it lie on this way, and the
last of them that may be shown is the smallest one.
-/
namespace Reparse

open Subtree

theorem Subtree.at?_append (start : Nat) (s : Subtree) (path rest : List Nat) :
    s.at? start (path ++ rest) = (s.at? start path).bind fun place => place.2.at? place.1 rest := by
  induction path generalizing start s with
  | nil => rfl
  | cons i path ih =>
    rw [List.cons_append, at?, at?]
    cases (s.positioned start)[i]? with
    | none => rfl
    | some entry => exact ih entry.1 entry.2

namespace Node

variable {t : Tree} {r : TextRange} {named : Bool} {n m d outer result : Node} {s : Subtree} {start : Nat}

/-- The node at the end of a path from `n` down. -/
def at? (n : Node) (path : List Nat) : Option Node :=
  (n.subtree.at? n.start path).map fun place => ⟨n.tree, place.2, place.1⟩

section Row

variable {q : Nat} {children : List Subtree}

end Row

/-- The node at a path is the node at the rest of it from a child on. -/
theorem at?_cons_eq_some (hTiled : Tiled n.subtree.info n.subtree.children) {i : Nat} {path : List Nat} :
    n.at? (i :: path) = some d ↔
      ∃ p c, (laid n.start n.subtree.children)[i]? = some (p, c) ∧ Node.at? ⟨n.tree, c, p⟩ path = some d := by
  rw [at?, Subtree.at?_cons hTiled, Option.map_bind, Option.bind_eq_some_iff]
  simp [at?]

theorem at?_append (n : Node) (path rest : List Nat) : n.at? (path ++ rest) = (n.at? path).bind fun m => m.at? rest := by
  obtain ⟨t, s, start⟩ := n
  rw [at?, Subtree.at?_append, Option.map_bind, at?, Option.bind_map]
  rfl

end Node

end Reparse
