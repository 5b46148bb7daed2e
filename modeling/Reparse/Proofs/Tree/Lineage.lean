import Reparse.Proofs.Parse.Provenance
import Reparse.Proofs.Tree.Ranges
/-!
# Trees that share nodes

Trees come one after the other: each is parsed, perhaps with an earlier one, or is an earlier one edited. They share
subtrees, and a number tells which: nodes with one number are one node, in whatever trees they are found, and a tree does not
have a node twice.
-/
namespace Reparse

open Subtree

namespace Tree

variable {next next' : NodeId} {trees : List Tree} {t u : Tree}

/-- Trees that were obtained one from another, the last one first, with the number of the next node to be made. -/
inductive Lineage : NodeId → List Tree → Prop
  | start (next : NodeId) : Lineage next []
  | parsed {σ : Type} {p : Parser} {host : Host σ} {input : σ} {old : Option Tree} {next : NodeId} {limit : Nat}
    {parsed : Parser.Parsed σ} {trees : List Tree} : Lineage next trees → (∀ tree ∈ old, tree ∈ trees) →
    (∀ tree ∈ old, tree.language.sameAs p.language = true → tree.language = p.language) →
    p.parse limit host input old next = some parsed → Lineage parsed.nextId (parsed.tree :: trees)
  | edited {tree : Tree} {next : NodeId} {trees : List Tree} (e : Edit) : Lineage next trees → tree ∈ trees →
    Lineage (tree.edited e next).2 ((tree.edited e next).1 :: trees)

/-- A tree that is parsed without another one. -/
theorem Lineage.first {σ : Type} {p : Parser} {host : Host σ} {input : σ} {limit : Nat} {parsed : Parser.Parsed σ}
    (h : p.parse limit host input none next = some parsed) : Lineage parsed.nextId [parsed.tree] :=
  .parsed (.start next) (fun _ hTree => absurd hTree (Option.not_mem_none _))
    (fun _ hTree => absurd hTree (Option.not_mem_none _)) h

/-- A text that is parsed with an earlier tree of the same language. -/
theorem Lineage.again {σ : Type} {p : Parser} {host : Host σ} {input : σ} {limit : Nat} {parsed : Parser.Parsed σ}
    (h : Lineage next trees) (ht : t ∈ trees) (hLanguage : t.language = p.language)
    (hParse : p.parse limit host input (some t) next = some parsed) : Lineage parsed.nextId (parsed.tree :: trees) :=
  .parsed h (fun _ hTree => Option.some.inj hTree ▸ ht) (fun _ hTree _ => Option.some.inj hTree ▸ hLanguage) hParse

/-- How the nodes of some trees are numbered. -/
structure Numbered (next : NodeId) (trees : List Tree) : Prop where
  lt : ∀ t ∈ trees, ∀ x ∈ t.root.nodes, x.id < next
  distinct : ∀ t ∈ trees, (t.root.nodes.map Subtree.id).Nodup
  agree : ∀ t ∈ trees, ∀ u ∈ trees, ∀ x ∈ t.root.nodes, ∀ y ∈ u.root.nodes, x.id = y.id → x = y

/-- A tree is added that is built from nodes of those before it. -/
theorem Numbered.cons {old : Multiset Subtree} (h : Numbered next trees) (hOld : ∀ x ∈ old, ∃ t ∈ trees, x ∈ t.root.nodes)
    (hDistinct : (old.map Subtree.id).Nodup) (hNew : Renews next next' old t.root.nodes) : Numbered next' (t :: trees) := by
  have hOldLt : ∀ x ∈ old, x.id < next := fun x hx => by
    obtain ⟨u, hu, hx⟩ := hOld x hx
    exact h.lt u hu x hx
  have hBefore : ∀ u ∈ trees, ∀ x ∈ t.root.nodes, ∀ y ∈ u.root.nodes, x.id = y.id → x = y := by
    intro u hu x hx y hy hId
    rcases hNew.origin hOldLt x hx with hx | ⟨hLe, -⟩
    · obtain ⟨w, hw, hx⟩ := hOld x hx
      exact h.agree w hw u hu x hx y hy hId
    · exact absurd (hId ▸ h.lt u hu y hy) (Nat.not_lt.mpr hLe)
  have hHere : ∀ x ∈ t.root.nodes, ∀ y ∈ t.root.nodes, x.id = y.id → x = y := by
    intro x hx y hy hId
    rcases hNew.origin hOldLt y hy with hy | ⟨-, hOnly⟩
    · obtain ⟨w, hw, hy⟩ := hOld y hy
      exact hBefore w hw x hx y hy hId
    · exact hOnly x hx hId
  constructor
  · exact List.forall_mem_cons.mpr ⟨hNew.lt hOldLt, fun u hu x hx => Nat.lt_of_lt_of_le (h.lt u hu x hx) hNew.le⟩
  · exact List.forall_mem_cons.mpr ⟨hNew.nodup hOldLt hDistinct, h.distinct⟩
  · refine List.forall_mem_cons.mpr ⟨List.forall_mem_cons.mpr ⟨hHere, hBefore⟩, fun u hu => ?_⟩
    exact List.forall_mem_cons.mpr ⟨fun x hx y hy hId => (hBefore u hu y hy x hx hId.symm).symm, h.agree u hu⟩

end Tree

end Reparse
