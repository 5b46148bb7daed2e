import Reparse.Proofs.Parse.Nodes
import Reparse.Proofs.Tree.Recorded
/-!
# What nodes count of their children

A node knows how many visible nodes are nearest below it, how many of them are named, and how many there are below it in
all. It is so in every tree that is parsed, from earlier ones perhaps, and stays so however the tree is edited.
-/
namespace Reparse

namespace Subtree

variable {l : Language} {info : NodeInfo} {children : List Subtree} {s : Subtree}

/-- The counts of a node are those of its children, each of which has a place. -/
structure Counted (l : Language) (info : NodeInfo) (children : List Subtree) : Prop where
  placed : info.offsets.length = children.length
  shown : info.visibleChildren = totalOf (shownChildren l) children
  named : info.namedChildren = totalOf (shownNamed l) children
  below : info.visibleDescendants = totalOf (shownBelow l) children

theorem lasting_counted (l : Language) : Lasting l (Counted l) where
  token _ _ _ _ _ _ _ := ⟨rfl, rfl, rfl, rfl⟩
  skipped _ _ _ _ _ := ⟨rfl, rfl, rfl, rfl⟩
  absent _ _ _ _ := ⟨rfl, rfl, rfl, rfl⟩
  parent _ _ _ _ _ _ := ⟨by simp [ofChildren, length_runningSums], rfl, rfl, rfl⟩
  changed _ _ _ _ _ h := ⟨h.placed, h.shown, h.named, h.below⟩
  extra _ _ _ _ _ _ h := ⟨h.placed, h.shown, h.named, h.below⟩

/-! ## Edits -/

theorem Retains.shownNamed {new old : Subtree} (h : Retains new old) : shownNamed l new = shownNamed l old := by
  obtain ⟨_, _, _, _, hInfo⟩ := h
  rw [Subtree.shownNamed, Subtree.shownNamed, symbol, symbol, hInfo]

theorem Retains.shownBelow {new old : Subtree} (h : Retains new old) : shownBelow l new = shownBelow l old := by
  obtain ⟨_, _, _, _, hInfo⟩ := h
  rw [Subtree.shownBelow, Subtree.shownBelow, symbol, symbol, hInfo]

theorem counted_edited : KeptByEdits (Counted l) := by
  intro info children e id h
  have hRetains := retains_editedAmong e false id h.placed
  rw [edited]
  constructor
  · simp [rebuilt, length_runningSums]
  · exact h.shown.trans (totalOf_retained hRetains fun _ _ => Retains.shownChildren).symm
  · exact h.named.trans (totalOf_retained hRetains fun _ _ => Retains.shownNamed).symm
  · exact h.below.trans (totalOf_retained hRetains fun _ _ => Retains.shownBelow).symm

theorem All.at? {P : NodeInfo → List Subtree → Prop} (h : s.All P) {start p : Nat} {path : List Nat} {d : Subtree}
    (hAt : s.at? start path = some (p, d)) : d.All P := by
  induction path generalizing s start with
  | nil =>
    obtain ⟨rfl, rfl⟩ := Prod.mk.inj (Option.some.inj hAt)
    exact h
  | cons i path ih =>
    rw [Subtree.at?, Option.bind_eq_some_iff] at hAt
    obtain ⟨entry, hEntry, hAt⟩ := hAt
    exact ih (h.child _ (List.of_mem_zip (List.mem_of_getElem? hEntry)).2) hAt

end Subtree

theorem Parser.language_parse {σ : Type} {p : Parser} {limit : Nat} {host : Host σ} {input : σ} {old : Option Tree} {next : NodeId}
    {parsed : Parsed σ} (h : p.parse limit host input old next = some parsed) : parsed.tree.language = p.language := by
  rw [parse] at h
  obtain ⟨_, _, rfl⟩ := Option.map_eq_some_iff.mp h
  rfl

/-- A tree that was parsed and perhaps edited since. An old tree is reused only by a parser of its own language. -/
inductive Tree.Obtained : Tree → Prop
  | parsed {σ : Type} {p : Parser} {host : Host σ} {input : σ} {old : Option Tree} {next : NodeId} {limit : Nat}
    {parsed : Parser.Parsed σ} : (∀ tree ∈ old, Obtained tree) →
    (∀ tree ∈ old, tree.language.sameAs p.language = true → tree.language = p.language) →
    p.parse limit host input old next = some parsed → Obtained parsed.tree
  | edited {tree : Tree} (e : Edit) (id : NodeId) : Obtained tree → Obtained (tree.edited e id).1

theorem Tree.Obtained.counted {t : Tree} (h : t.Obtained) : t.root.All (Subtree.Counted t.language) := by
  induction h with
  | @parsed σ p host input old next limit parsed _ hLanguage hParse ih =>
    rw [Parser.language_parse hParse]
    refine Parser.parse_all (Subtree.lasting_counted _) (fun tree hMem hSame => ?_) hParse
    rw [← hLanguage tree hMem hSame]
    exact ih tree hMem
  | edited e id _ ih => exact Subtree.all_edited Subtree.counted_edited _ id _ ih

end Reparse
