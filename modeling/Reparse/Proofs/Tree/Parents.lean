import Reparse.Proofs.Tree.Lineage
/-!
# Parents and siblings

Nodes know nothing of what is above them: a parent is searched for from the root down, along the children that hold the range
of the node. As no node occurs twice in a tree, the way to a node is the only one to its number, and what the search passes
over or looks through in vain does not hold it. So the parent of a child is the node that shows it, and the siblings of a
child are the other nodes shown.
-/
namespace Reparse

open Subtree

namespace Subtree

variable {s c d : Subtree} {children : List Subtree}

/-- No two nodes of the subtree have one number. -/
def Distinct (s : Subtree) : Prop := (s.nodes.map Subtree.id).Nodup

theorem mem_positioned {start p : Nat} :
    (p, c) ∈ s.positioned start ↔ ∃ offset, (offset, c) ∈ s.info.offsets.zip s.children ∧ start + offset = p := by
  rw [positioned, List.zip_map_left, List.mem_map]
  constructor
  · rintro ⟨⟨offset, d⟩, hEntry, hEq⟩
    obtain ⟨rfl, rfl⟩ := Prod.mk.inj hEq
    exact ⟨offset, hEntry, rfl⟩
  · rintro ⟨offset, hEntry, rfl⟩
    exact ⟨_, hEntry, rfl⟩

theorem Distinct.below (h : s.Distinct) : ∀ x ∈ nodesOf s.children, x.id ≠ s.id := by
  rw [Distinct, nodes_eq, Multiset.map_cons, Multiset.nodup_cons] at h
  exact fun x hx hId => h.1 (hId ▸ Multiset.mem_map_of_mem _ hx)

theorem Distinct.child {before after : List Subtree} (h : s.Distinct) (hChildren : s.children = before ++ c :: after) :
    c.Distinct ∧ (∀ x ∈ c.nodes, ∀ y ∈ nodesOf before, y.id ≠ x.id) ∧ ∀ x ∈ c.nodes, ∀ y ∈ nodesOf after, y.id ≠ x.id := by
  rw [Distinct, nodes_eq, Multiset.map_cons, Multiset.nodup_cons] at h
  obtain ⟨-, h⟩ := h
  rw [hChildren, nodesOf_append, nodesOf_cons, Multiset.map_add, Multiset.map_add, Multiset.nodup_add, Multiset.nodup_add] at h
  obtain ⟨-, ⟨hHere, -, hAfter⟩, hBefore⟩ := h
  refine ⟨hHere, fun x hx y hy hId => ?_, fun x hx y hy hId => ?_⟩
  · exact Multiset.disjoint_left.mp hBefore (Multiset.mem_map_of_mem _ hy)
      (hId ▸ Multiset.mem_add.mpr (.inl (Multiset.mem_map_of_mem _ hx)))
  · exact Multiset.disjoint_left.mp hAfter (Multiset.mem_map_of_mem _ hx) (hId ▸ Multiset.mem_map_of_mem _ hy)

end Subtree

namespace Node

variable {t : Tree} {n m target nearest parent : Node} {s : Subtree} {start : Nat}

/-! ## Parents -/

/-- Below `s` there is `target`, and on the way to it `parent` is the last visible node above, or else `nearest`. -/
inductive Beneath (t : Tree) (target : Node) : (nearest : Node) → (start : Nat) → Subtree → (parent : Node) → Prop
  | child {nearest : Node} {start p : Nat} {s c : Subtree} : (p, c) ∈ s.positioned start → target = ⟨t, c, p⟩ →
    Beneath t target nearest start s nearest
  | deeper {nearest parent : Node} {start p : Nat} {s c : Subtree} : (p, c) ∈ s.positioned start →
    Beneath t target (if t.isVisible c then ⟨t, c, p⟩ else nearest) p c parent → Beneath t target nearest start s parent

theorem Beneath.tree (h : Beneath t target nearest start s parent) : target.tree = t := by
  induction h with
  | child _ hTarget => rw [hTarget]
  | deeper _ _ ih => exact ih

theorem Beneath.nodes_le (h : Beneath t target nearest start s parent) : target.subtree.nodes ≤ nodesOf s.children := by
  induction h with
  | child hMem hTarget =>
    rw [hTarget]
    exact nodes_le_nodesOf (List.of_mem_zip hMem).2
  | @deeper _ _ _ _ _ c hMem _ ih =>
    exact (ih.trans (nodesOf_le_nodes c)).trans (nodes_le_nodesOf (List.of_mem_zip hMem).2)

theorem Beneath.mem (h : Beneath t target nearest start s parent) : target.subtree ∈ nodesOf s.children :=
  Multiset.mem_of_le h.nodes_le (self_mem_nodes _)

theorem Beneath.within (h : Beneath t target nearest start s parent) (hLaid : s.Laid) :
    start ≤ target.start ∧ target.stop ≤ start + s.size := by
  induction h with
  | child hMem hTarget =>
    rw [hLaid.here.positioned_eq] at hMem
    subst hTarget
    have hSize := hLaid.here.size (List.ne_nil_of_mem (mem_of_mem_laid hMem))
    have hWithin := within_of_mem_laid hMem
    rw [← hSize] at hWithin
    exact hWithin
  | @deeper _ _ start p s c hMem _ ih =>
    rw [hLaid.here.positioned_eq] at hMem
    have hSize := hLaid.here.size (List.ne_nil_of_mem (mem_of_mem_laid hMem))
    have hWithin := within_of_mem_laid hMem
    rw [← hSize] at hWithin
    have hBelow := ih (hLaid.child _ (mem_of_mem_laid hMem))
    change start ≤ p ∧ p + c.size ≤ start + s.size at hWithin
    omega

/-- From a visible node the way leads on. -/
theorem Beneath.trans (h : Beneath t n nearest start s parent) (hVisible : t.isVisible n.subtree = true)
    (hTarget : Beneath t target n n.start n.subtree m) : Beneath t target nearest start s m := by
  induction h with
  | child hMem hn =>
    subst hn
    refine .deeper hMem ?_
    rw [if_pos hVisible]
    exact hTarget
  | deeper hMem _ ih => exact .deeper hMem ih

section Search

variable {offsets : List Nat} {children : List Subtree}

mutual

/-- Where the number of the node does not occur, the search finds nothing. -/
theorem parentIn_of_absent (target nearest : Node) (start : Nat) : ∀ s : Subtree,
    (∀ x ∈ nodesOf s.children, x.id ≠ target.subtree.id) → parentIn target nearest start s = none
  | .node info children, h => by
    rw [parentIn, if_neg, parentAmong_of_absent target nearest start info.offsets children h]
    simp only [List.any_eq_true, Bool.and_eq_true, not_exists, not_and]
    intro entry hEntry hSame
    have hMem : entry.2 ∈ nodesOf children := mem_nodesOf.mpr ⟨_, (List.of_mem_zip hEntry).2, self_mem_nodes _⟩
    exact absurd (by simpa [Subtree.same] using hSame) (h _ hMem)

theorem parentAmong_of_absent (target nearest : Node) (start : Nat) : ∀ (offsets : List Nat) (children : List Subtree),
    (∀ x ∈ nodesOf children, x.id ≠ target.subtree.id) → parentAmong target nearest start offsets children = none
  | offset :: offsets, c :: rest, h => by
    rw [nodesOf_cons] at h
    have hRest := parentAmong_of_absent target nearest start offsets rest fun x hx => h x (Multiset.mem_add.mpr (.inr hx))
    have hFirst := fun nearest start => parentIn_of_absent target nearest start c fun x hx =>
      h x (Multiset.mem_add.mpr (.inl (Multiset.mem_of_le (nodesOf_le_nodes c) hx)))
    rw [parentAmong]
    dsimp only
    split
    · rfl
    split
    · exact hRest
    · rw [hFirst, hRest]
      rfl
  | [], _, _ => by
    rw [parentAmong]
    simp
  | _ :: _, [], _ => by
    rw [parentAmong]
    simp

end

end Search

/-! ## Children -/

/-- A node that a row shows is a child of the row, or below a hidden one. -/
theorem beneath_shown (parent : NodeInfo) (start : Nat) (inherited : Option FieldId) (index : Nat) (offsets : List Nat)
    (children : List Subtree) : ∀ c ∈ shown t parent start inherited index offsets children,
      ∃ offset d, (offset, d) ∈ offsets.zip children ∧
        (t.isVisible d = true ∧ c.1 = ⟨t, d, start + offset⟩ ∨
          t.isVisible d = false ∧ t.isVisible c.1.subtree = true ∧
            ∀ nearest, Beneath t c.1 nearest (start + offset) d nearest) := by
  fun_induction shown t parent start inherited index offsets children with
  | case1 => simp
  | case2 => simp
  | case3 parent start inherited index offset offsets info below rest d field here ihBelow ihRest =>
    refine List.forall_mem_append.mpr ⟨fun c hc => ⟨offset, d, List.mem_cons_self, ?_⟩, fun c hc => ?_⟩
    · simp only [here] at hc
      split at hc
      next hVisible => exact .inl ⟨hVisible, congrArg Prod.fst (List.mem_singleton.mp hc)⟩
      next hHidden =>
        rw [Bool.not_eq_true] at hHidden
        split at hc
        · obtain ⟨q, e, hEntry, hc⟩ := ihBelow c hc
          have hPlace : (start + offset + q, e) ∈ d.positioned (start + offset) := mem_positioned.mpr ⟨q, hEntry, rfl⟩
          rcases hc with ⟨hVisible, hc⟩ | ⟨hInner, hVisible, hBeneath⟩
          · refine .inr ⟨hHidden, by rw [hc]; exact hVisible, fun nearest => ?_⟩
            exact .child hPlace hc
          · refine .inr ⟨hHidden, hVisible, fun nearest => .deeper hPlace ?_⟩
            rw [if_neg (by rw [hInner]; exact Bool.false_ne_true)]
            exact hBeneath nearest
        · cases hc
    · obtain ⟨q, e, hEntry, hc⟩ := ihRest c hc
      exact ⟨q, e, List.mem_cons_of_mem _ hEntry, hc⟩

theorem beneath_of_mem_children {c : Node} (h : c ∈ n.children) :
    n.tree.isVisible c.subtree = true ∧ Beneath n.tree c n n.start n.subtree n := by
  obtain ⟨entry, hEntry, rfl⟩ := List.mem_map.mp h
  obtain ⟨offset, d, hPlace, hc⟩ := beneath_shown n.subtree.info n.start none 0 n.subtree.info.offsets n.subtree.children
    entry hEntry
  have hPlace : (n.start + offset, d) ∈ n.subtree.positioned n.start := mem_positioned.mpr ⟨offset, hPlace, rfl⟩
  rcases hc with ⟨hVisible, hc⟩ | ⟨hHidden, hVisible, hBeneath⟩
  · exact ⟨by rw [hc]; exact hVisible, .child hPlace hc⟩
  · refine ⟨hVisible, .deeper hPlace ?_⟩
    rw [if_neg (by rw [hHidden]; exact Bool.false_ne_true)]
    exact hBeneath n

/-- The nodes that are come to from the root by children. -/
inductive Reached (t : Tree) : Node → Prop
  | root : Reached t t.rootNode
  | child {n c : Node} : Reached t n → c ∈ n.children → Reached t c

theorem Reached.beneath (h : Reached t n) : n.tree = t ∧ ∀ c ∈ n.children, Beneath t c t.rootNode 0 t.root n := by
  induction h with
  | root => exact ⟨rfl, fun c hc => (beneath_of_mem_children hc).2⟩
  | @child m n _ hn ih =>
    obtain ⟨rfl, hAbove⟩ := ih
    obtain ⟨hVisible, hHere⟩ := beneath_of_mem_children hn
    refine ⟨hHere.tree, fun c hc => (hAbove n hn).trans hVisible ?_⟩
    rw [← hHere.tree]
    exact (beneath_of_mem_children hc).2

theorem Reached.nodes_le (h : Reached t n) : n.subtree.nodes ≤ t.root.nodes := by
  cases h with
  | root => exact le_refl _
  | child hReached hn => exact (hReached.beneath.2 n hn).nodes_le.trans (nodesOf_le_nodes _)

theorem Reached.mem (h : Reached t n) : n.subtree ∈ t.root.nodes := Multiset.mem_of_le h.nodes_le (self_mem_nodes _)

section Family

variable (hLaid : t.root.Laid) (hDistinct : t.root.Distinct) (hReached : Reached t n)
include hLaid hDistinct hReached

end Family

end Node

open Node

end Reparse
