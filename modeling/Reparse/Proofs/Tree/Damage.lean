import Reparse.Proofs.Tree.Edited
/-!
# Damage

Marking the damage of edits is sound and exact, for any number of them: an unflagged subtree of an edited
tree is a subtree of the tree that was parsed, over the bytes that it depended on then, and one more edit
flags an unflagged subtree exactly if it touches the subtree's range or lookahead.
-/
namespace Reparse

/-- The edit replaces some bytes of `old` by others, which makes `new` of it. -/
def Edit.Turns (e : Edit) (old new : List UInt8) : Prop :=
  ∃ front removed inserted back, old = front ++ removed ++ back ∧ new = front ++ inserted ++ back ∧
    e = ⟨front.length, front.length + removed.length, front.length + inserted.length⟩

namespace Edit

variable {e : Edit} {old new : List UInt8}

theorem Turns.ordered (h : e.Turns old new) : e.Ordered := by
  obtain ⟨front, removed, inserted, back, _, _, rfl⟩ := h
  exact ⟨Nat.le_add_right _ _, Nat.le_add_right _ _⟩

theorem Turns.oldEnd_le (h : e.Turns old new) : e.oldEnd ≤ old.length := by
  obtain ⟨front, removed, inserted, back, rfl, _, rfl⟩ := h
  simp

/-- An exact edit needs no fitting to a tree that is over the text. -/
theorem Turns.clamped_eq (h : e.Turns old new) {size : Nat} (hSize : old.length ≤ size) : e.clamped size = e := by
  obtain ⟨hOld, hNew⟩ := h.ordered
  have hEnd := h.oldEnd_le
  rw [clamped, Nat.min_eq_left (Nat.le_trans hEnd hSize), Nat.min_eq_left hOld, Nat.max_eq_left hNew]

theorem Turns.length_le_resized (h : e.Turns old new) {size : Nat} (hSize : old.length ≤ size) :
    new.length ≤ e.resized size := by
  obtain ⟨front, removed, inserted, back, rfl, rfl, rfl⟩ := h
  simp only [List.length_append] at hSize
  simp only [resized, List.length_append]
  rw [if_neg (by omega), if_pos (by omega)]
  omega

/-- What a subtree depends on moves along with it. -/
theorem Turns.getElem?_eq (h : e.Turns old new) {p p' : Nat} {s : Subtree} (hMoves : e.Moves p s p') {i : Nat}
    (hi : i ≤ s.size + s.lookahead) : new[p' + i]? = old[p + i]? := by
  obtain ⟨front, removed, inserted, back, rfl, rfl, rfl⟩ := h
  rcases hMoves with ⟨hBefore, rfl⟩ | ⟨hAfter, hMoved⟩
  · dsimp only at hBefore
    rw [List.append_assoc, List.append_assoc, List.getElem?_append_left (by omega),
      List.getElem?_append_left (by omega)]
  · dsimp only at hAfter hMoved
    rw [List.getElem?_append_right (by simp; omega), List.getElem?_append_right (by simp; omega)]
    simp only [List.length_append]
    congr 1
    omega

end Edit

/-- Exact edits, one after the other, lead from a tree over its text to another one. -/
inductive Tree.EditedTo (tree : Tree) (text : List UInt8) : Tree → List UInt8 → Prop
  | refl : EditedTo tree text tree text
  | edit {t : Tree} {old new : List UInt8} {e : Edit} (id : NodeId) : EditedTo tree text t old → e.Turns old new →
      EditedTo tree text (t.edited e id).1 new

namespace Tree

theorem root_edited (t : Tree) (e : Edit) (id : NodeId) :
    (t.edited e id).1.root = (Subtree.edited (e.clamped t.size) id t.root).1 := rfl

/-- What one exact edit does to a tree that is over its text. -/
theorem edited_at {t : Tree} {old new : List UInt8} (h : t.root.All Subtree.Kept) (hSize : old.length ≤ t.size)
    {e : Edit} (he : e.Turns old new) (id : NodeId) (path : List Nat) :
    Option.Rel (Subtree.Fate e) (t.root.at? 0 path) ((t.edited e id).1.root.at? 0 path) := by
  rw [root_edited, he.clamped_eq hSize]
  have hOld := he.oldEnd_le
  have hStart := he.ordered.1
  refine Subtree.edited_at h he.ordered ?_ id path
  change _ ≤ t.size + _
  omega

theorem kept_edited {t : Tree} {old new : List UInt8} (h : t.root.All Subtree.Kept) (hSize : old.length ≤ t.size)
    {e : Edit} (he : e.Turns old new) (id : NodeId) :
    (t.edited e id).1.root.All Subtree.Kept ∧ new.length ≤ (t.edited e id).1.size := by
  have hOld := he.oldEnd_le
  have hStart := he.ordered.1
  rw [size, root_edited, he.clamped_eq hSize, Subtree.size_edited]
  refine ⟨Subtree.kept_edited h he.ordered ?_ id, he.length_le_resized hSize⟩
  change _ ≤ t.size + _
  omega

variable {tree t : Tree} {text old : List UInt8}

theorem EditedTo.kept (h : tree.EditedTo text t old) (hTree : tree.root.All Subtree.Kept)
    (hSize : text.length ≤ tree.size) : t.root.All Subtree.Kept ∧ old.length ≤ t.size := by
  induction h with
  | refl => exact ⟨hTree, hSize⟩
  | edit id _ he ih => exact kept_edited ih.1 ih.2 he id

/-- An unflagged subtree stood in the tree that was parsed, over the same bytes. -/
theorem EditedTo.unchanged (h : tree.EditedTo text t old) (hTree : tree.root.All Subtree.Kept)
    (hSize : text.length ≤ tree.size) {path : List Nat} {p : Nat} {s : Subtree}
    (hAt : t.root.at? 0 path = some (p, s)) (hChanges : s.hasChanges = false) :
    ∃ p₀, tree.root.at? 0 path = some (p₀, s) ∧ ∀ i ≤ s.size + s.lookahead, old[p + i]? = text[p₀ + i]? := by
  induction h generalizing p with
  | refl => exact ⟨p, hAt, fun _ _ => rfl⟩
  | @edit t old new e id hBefore he ih =>
    obtain ⟨hKept, hFits⟩ := hBefore.kept hTree hSize
    have hFate := edited_at hKept hFits he id path
    rw [hAt] at hFate
    generalize hAtBefore : t.root.at? 0 path = entry at hFate
    cases hFate with
    | @some entry _ hFate =>
      cases hFate with
      | flagged _ hFlagged => rw [hChanges] at hFlagged; cases hFlagged
      | kept _ hMoves =>
        obtain ⟨p₀, hAtFirst, hBytes⟩ := ih hAtBefore
        exact ⟨p₀, hAtFirst, fun i hi => (he.getElem?_eq hMoves hi).trans (hBytes i hi)⟩

end Tree
end Reparse
