import Reparse.Proofs.Parse.Steps
import Reparse.Proofs.Tree.Inventory
/-!
# Cursors over old trees

A cursor only moves forward: what it comes to was ahead of it before, and what is ahead gets less with every
move.
-/
namespace Reparse

namespace Subtree

mutual

/-- The number of nodes. -/
def count : Subtree → Nat
  | node _ children => 1 + countAmong children

def countAmong : List Subtree → Nat
  | [] => 0
  | c :: rest => count c + countAmong rest

end

mutual

theorem card_nodes : ∀ s : Subtree, Multiset.card s.nodes = s.count
  | node info children => by
    rw [nodes, Multiset.card_cons, count, card_nodesOf children, Nat.add_comm]

theorem card_nodesOf : ∀ children : List Subtree, Multiset.card (nodesOf children) = countAmong children
  | [] => by simp [countAmong]
  | c :: rest => by rw [nodesOf_cons, Multiset.card_add, card_nodes c, card_nodesOf rest, countAmong]

end

end Subtree

namespace ReuseCursor

open Subtree

variable {P : Nat → Subtree → Prop} {c c' : ReuseCursor}

/-! ## What is ahead -/

/-- The property holds of what the cursor stands before and of all that comes after it, with the starts. -/
def Ahead (P : Nat → Subtree → Prop) (c : ReuseCursor) : Prop :=
  ∀ frame ∈ c.frames, P frame.start frame.current ∧ ∀ entry ∈ frame.after, P entry.1 entry.2

theorem ahead_ofTree {t : Tree} (h : P 0 t.root) : (ofTree t).Ahead P := by
  intro frame hFrame
  rw [List.mem_singleton.mp hFrame]
  exact ⟨h, by simp⟩

theorem Ahead.current (h : c.Ahead P) {s : Subtree} {start : Nat} (hCurrent : c.current? = some (s, start)) :
    P start s := by
  obtain ⟨frame, hFrame, hEq⟩ := Option.map_eq_some_iff.mp hCurrent
  obtain ⟨rfl, rfl⟩ := Prod.mk.inj hEq
  exact (h frame (List.mem_of_mem_head? hFrame)).1

theorem ahead_pastFrames {frames : List ReuseFrame}
    (h : ∀ frame ∈ frames, P frame.start frame.current ∧ ∀ entry ∈ frame.after, P entry.1 entry.2) :
    ∀ frame ∈ pastFrames frames, P frame.start frame.current ∧ ∀ entry ∈ frame.after, P entry.1 entry.2 := by
  induction frames with
  | nil => simp [pastFrames]
  | cons frame above ih =>
    have hAbove := fun other hOther => h other (List.mem_cons_of_mem _ hOther)
    rw [pastFrames]
    split
    next start next after hAfter =>
      obtain ⟨_, hLater⟩ := h frame List.mem_cons_self
      rw [hAfter] at hLater
      intro other hOther
      rcases List.mem_cons.mp hOther with rfl | hOther
      · exact ⟨hLater _ List.mem_cons_self, fun entry hEntry => hLater entry (List.mem_cons_of_mem _ hEntry)⟩
      · exact hAbove other hOther
    next => exact ih hAbove

theorem Ahead.advance (h : c.Ahead P) : c.advance.Ahead P := ahead_pastFrames h

theorem Ahead.descend (hBelow : ∀ start s, P start s → ∀ entry ∈ s.positioned start, P entry.1 entry.2) (h : c.Ahead P) :
    c.descend.Ahead P := by
  rw [ReuseCursor.descend]
  split
  · exact h
  next s start hCurrent =>
    have hChildren := hBelow start s (h.current hCurrent)
    split
    · exact h.advance
    next first child after hPositioned =>
      rw [hPositioned] at hChildren
      intro frame hFrame
      rcases List.mem_cons.mp hFrame with rfl | hFrame
      · exact ⟨hChildren _ List.mem_cons_self, fun entry hEntry => hChildren entry (List.mem_cons_of_mem _ hEntry)⟩
      · exact h frame hFrame

theorem Ahead.moves (hBelow : ∀ start s, P start s → ∀ entry ∈ s.positioned start, P entry.1 entry.2) (h : c.Ahead P)
    (hMoves : c.Moves c') : c'.Ahead P := by
  induction hMoves with
  | refl => exact h
  | advance _ _ ih => exact ih.advance
  | descend _ _ ih => exact ih.descend hBelow

theorem ahead_of_rel {old new : Option ReuseCursor} (hBelow : ∀ start s, P start s → ∀ entry ∈ s.positioned start, P entry.1 entry.2)
    (h : ∀ c, old = some c → c.Ahead P) (hMoves : Option.Rel Moves old new) : ∀ c, new = some c → c.Ahead P := by
  intro c hc
  cases hMoves with
  | none => cases hc
  | some hMoves =>
    obtain rfl := Option.some.inj hc
    exact (h _ rfl).moves hBelow hMoves

/-! ## How much is ahead -/

/-- The nodes that come after the candidate. -/
def nodesLater : List ReuseFrame → Multiset Subtree
  | [] => 0
  | frame :: above => nodesOf (frame.after.map Prod.snd) + nodesLater above

/-- The nodes of the candidate and those that come after it. -/
def nodesAhead : List ReuseFrame → Multiset Subtree
  | [] => 0
  | frame :: above => frame.current.nodes + nodesLater (frame :: above)

theorem nodesAhead_pastFrames (frames : List ReuseFrame) : nodesAhead (pastFrames frames) = nodesLater frames := by
  induction frames with
  | nil => rfl
  | cons frame above ih =>
    rw [pastFrames]
    split
    next start next after hAfter => simp only [nodesAhead, nodesLater, hAfter, List.map_cons, nodesOf_cons, add_assoc]
    next hAfter => rw [ih, nodesLater, hAfter, List.map_nil, nodesOf_nil, zero_add]

theorem frames_of_current {s : Subtree} {start : Nat} (h : c.current? = some (s, start)) :
    ∃ frame above, c.frames = frame :: above ∧ frame.current = s ∧ frame.start = start := by
  rw [current?, Option.map_eq_some_iff] at h
  obtain ⟨frame, hFrame, hEq⟩ := h
  obtain ⟨above, hFrames⟩ := List.head?_eq_some_iff.mp hFrame
  exact ⟨frame, above, hFrames, congrArg Prod.fst hEq, congrArg Prod.snd hEq⟩

/-- The nodes of a candidate that is passed are those that are no longer ahead. -/
theorem nodesAhead_advance {s : Subtree} {start : Nat} (h : c.current? = some (s, start)) :
    nodesAhead c.frames = s.nodes + nodesAhead c.advance.frames := by
  obtain ⟨frame, above, hFrames, rfl, -⟩ := frames_of_current h
  rw [advance, nodesAhead_pastFrames, hFrames, nodesAhead]

theorem nodesAhead_descend {s : Subtree} {start : Nat} (h : c.current? = some (s, start)) :
    s ::ₘ nodesAhead c.descend.frames ≤ nodesAhead c.frames := by
  obtain ⟨frame, above, hFrames, rfl, rfl⟩ := frames_of_current h
  rw [descend, h]
  dsimp only
  split
  · rw [nodesAhead_advance h, nodes_eq, Multiset.cons_add]
    exact Multiset.cons_le_cons _ (Multiset.le_add_left _ _)
  next first child after hPositioned =>
    have hChildren := nodesOf_zip_le (frame.current.info.offsets.map (frame.start + ·)) frame.current.children
    rw [← positioned, hPositioned, List.map_cons, nodesOf_cons] at hChildren
    rw [hFrames]
    simp only [nodesAhead, nodesLater, nodes_eq frame.current, Multiset.cons_add, ← add_assoc]
    exact Multiset.cons_le_cons _ (Multiset.add_le_add_right (Multiset.add_le_add_right hChildren))

/-- A cursor that moves has less ahead of it. -/
theorem Moves.eq_or_nodesAhead_lt (h : c.Moves c') : c' = c ∨ nodesAhead c'.frames < nodesAhead c.frames := by
  have hLe {a : ReuseCursor} (ha : a = c ∨ nodesAhead a.frames < nodesAhead c.frames) :
      nodesAhead a.frames ≤ nodesAhead c.frames := by
    rcases ha with rfl | hLt
    · exact le_refl _
    · exact hLt.le
  induction h with
  | refl => exact .inl rfl
  | advance _ hCurrent ih =>
    obtain ⟨⟨s, start⟩, hCurrent⟩ := Option.isSome_iff_exists.mp hCurrent
    refine .inr (lt_of_lt_of_le ?_ (hLe ih))
    rw [nodesAhead_advance hCurrent, nodes_eq, Multiset.cons_add]
    exact lt_of_le_of_lt (Multiset.le_add_left _ _) (Multiset.lt_cons_self _ _)
  | descend _ hCurrent ih =>
    obtain ⟨⟨s, start⟩, hCurrent⟩ := Option.isSome_iff_exists.mp hCurrent
    exact .inr (lt_of_lt_of_le (lt_of_lt_of_le (Multiset.lt_cons_self _ _) (nodesAhead_descend hCurrent)) (hLe ih))

theorem Moves.nodesAhead_le (h : c.Moves c') : nodesAhead c'.frames ≤ nodesAhead c.frames := by
  rcases h.eq_or_nodesAhead_lt with rfl | hLt
  · exact le_refl _
  · exact hLt.le

/-- The number of the nodes that come after the candidate. -/
def countLater : List ReuseFrame → Nat
  | [] => 0
  | frame :: above => countAmong (frame.after.map Prod.snd) + countLater above

/-- The number of the nodes of the candidate and of those that come after it. -/
def countAhead : List ReuseFrame → Nat
  | [] => 0
  | frame :: above => frame.current.count + countLater (frame :: above)

theorem card_nodesLater (frames : List ReuseFrame) : Multiset.card (nodesLater frames) = countLater frames := by
  induction frames with
  | nil => rfl
  | cons frame above ih => rw [nodesLater, Multiset.card_add, card_nodesOf, ih, countLater]

theorem card_nodesAhead (frames : List ReuseFrame) : Multiset.card (nodesAhead frames) = countAhead frames := by
  cases frames with
  | nil => rfl
  | cons frame above => rw [nodesAhead, Multiset.card_add, card_nodes, card_nodesLater, countAhead]

theorem Moves.eq_or_countAhead_lt (h : c.Moves c') : c' = c ∨ countAhead c'.frames < countAhead c.frames := by
  refine h.eq_or_nodesAhead_lt.imp_right fun hLt => ?_
  rw [← card_nodesAhead, ← card_nodesAhead]
  exact Multiset.card_lt_card hLt

end ReuseCursor

/-- The nodes that a search answers. -/
def Reuse.nodes : Reuse → Multiset Subtree
  | .subtree s => s.nodes
  | _ => 0

namespace Session

variable {P : Nat → Subtree → Prop} {l : Language} {stack : ParseStack} {c c' : ReuseCursor}

/-- What a search takes was ahead, and the rest still is. -/
theorem Finds.ahead {found : Reuse} (hBelow : ∀ start s, P start s → ∀ entry ∈ s.positioned start, P entry.1 entry.2)
    (h : c.Ahead P) (hFinds : Finds l stack c (found, c')) :
    c'.Ahead P ∧ ∀ s, found = .subtree s → P stack.position s ∧ s.hasChanges = false ∧ 0 < s.size := by
  cases hFinds with
  | none hMoves => exact ⟨h.moves hBelow hMoves, by simp⟩
  | subtree hMoves hCurrent hReusable =>
    have hAhead := h.moves hBelow hMoves
    refine ⟨hAhead.advance, fun s hs => ?_⟩
    obtain rfl := Reuse.subtree.inj hs
    simp only [isReusable, Bool.and_eq_true, Bool.not_eq_true', decide_eq_true_eq] at hReusable
    exact ⟨hAhead.current hCurrent, hReusable.1.1.1.1.1.1, hReusable.1.1.1.1.2⟩
  | reduce hMoves => exact ⟨h.moves hBelow hMoves, by simp⟩

/-- A search takes the nodes of what it answers from those ahead. -/
theorem Finds.nodes_le {found : Reuse} (hFinds : Finds l stack c (found, c')) :
    found.nodes + ReuseCursor.nodesAhead c'.frames ≤ ReuseCursor.nodesAhead c.frames := by
  cases hFinds with
  | none hMoves => exact (zero_add _).trans_le hMoves.nodesAhead_le
  | subtree hMoves hCurrent => exact (ReuseCursor.nodesAhead_advance hCurrent).symm.trans_le hMoves.nodesAhead_le
  | reduce hMoves => exact (zero_add _).trans_le hMoves.nodesAhead_le

end Session
end Reparse
