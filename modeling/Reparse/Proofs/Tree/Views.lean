import Reparse.Proofs.Parse.Productions
import Reparse.Proofs.Tree.Counted
import Reparse.Tree.Cursor
/-!
# Views of the children of a node

The children of a node, the stops of a cursor below it, its counts and the walk in preorder tell the same of the visible
nodes. What a cursor has ahead of it is a list of nodes: `following` are those below the same visible parent, `past` all
that come after everything below it, and every move takes the first one off.
-/
namespace Reparse

open Subtree

namespace Node

mutual

/-- The visible nodes below a subtree, each before those below it. -/
def belowIn (t : Tree) (start : Nat) : Subtree → List Node
  | .node info children => belowAmong t start info.offsets children

def belowAmong (t : Tree) (start : Nat) : List Nat → List Subtree → List Node
  | _, [] => []
  | [], _ => []
  | offset :: offsets, .node info below :: rest =>
    let c := Subtree.node info below
    let here :=
      if t.isVisible c then ⟨t, c, start + offset⟩ :: belowIn t (start + offset) c
      else if 0 < info.visibleChildren then belowAmong t (start + offset) info.offsets below
      else []
    here ++ belowAmong t start offsets rest

end

/-- The visible nodes below a node. -/
def below (n : Node) : List Node := belowIn n.tree n.start n.subtree

/-- Each of the nodes, followed by those below it. -/
def spread (nodes : List (Node × Option FieldId)) : List Node := nodes.flatMap fun c => c.1 :: c.1.below

@[simp] theorem spread_append (a b : List (Node × Option FieldId)) : spread (a ++ b) = spread a ++ spread b :=
  List.flatMap_append

theorem belowAmong_eq (t : Tree) (parent : NodeInfo) (start : Nat) (inherited : Option FieldId) (index : Nat)
    (offsets : List Nat) (children : List Subtree) :
    belowAmong t start offsets children = spread (shown t parent start inherited index offsets children) := by
  fun_induction shown t parent start inherited index offsets children with
  | case1 => rw [belowAmong]; rfl
  | case2 =>
    rw [belowAmong]
    · rfl
    · assumption
  | case3 parent start inherited index offset offsets info below rest c field here ihBelow ihRest =>
    rw [belowAmong, ihRest, spread_append, ihBelow]
    congr 1
    simp only [here]
    split
    · simp [spread, Node.below, c]
    split
    · rfl
    · rfl

theorem below_eq (n : Node) : n.below = spread n.childrenWithFields := by
  obtain ⟨t, ⟨info, children⟩, start⟩ := n
  rw [below, belowIn]
  exact belowAmong_eq ..

/-! ## Counts -/

section Counts

variable {t : Tree} {children : List Subtree} {offsets : List Nat}

theorem totalOf_eq_zero {f : Subtree → Nat} : totalOf f children = 0 ↔ ∀ c ∈ children, f c = 0 := by
  induction children with
  | nil => simp
  | cons c rest ih => simp [ih]

theorem shownChildren_eq_zero {c : Subtree} :
    shownChildren t.language c = 0 ↔ t.isVisible c = false ∧ c.info.visibleChildren = 0 := by
  rw [shownChildren, Tree.isVisible]
  cases t.language.isVisible c.symbol <;> simp

variable {f : Subtree → Nat}
  (hHidden : ∀ c : Subtree, c.All (Counted t.language) → t.isVisible c = false → f c = totalOf f c.children)
include hHidden

/-- What is counted at the visible nodes is nothing where there are none. -/
theorem eq_zero_of_shown {s : Subtree} (h : s.All (Counted t.language)) (hShown : shownChildren t.language s = 0) :
    f s = 0 := by
  induction s using Subtree.inductionOn with
  | node info children ih =>
    obtain ⟨hSelf, hNone⟩ := shownChildren_eq_zero.mp hShown
    rw [h.here.shown, totalOf_eq_zero] at hNone
    rw [hHidden _ h hSelf, totalOf_eq_zero]
    exact fun c hc => ih c hc (h.child c hc) (hNone c hc)

/-- A count of visible nodes that hidden ones have from their children is that over what is shown. -/
theorem sum_shown (g : Node → Nat) (hVisible : ∀ c start, t.isVisible c = true → g ⟨t, c, start⟩ = f c)
    (parent : NodeInfo) (start : Nat) (inherited : Option FieldId) (index : Nat)
    (h : ∀ c ∈ children, c.All (Counted t.language)) (hPlaced : offsets.length = children.length) :
    ((shown t parent start inherited index offsets children).map fun c => g c.1).sum = totalOf f children := by
  fun_induction shown t parent start inherited index offsets children with
  | case1 => rfl
  | case2 =>
    rw [List.eq_nil_of_length_eq_zero hPlaced.symm]
    rfl
  | case3 parent start inherited index offset offsets info below rest c field here ihBelow ihRest =>
    obtain ⟨hFirst, hRest⟩ := List.forall_mem_cons.mp h
    rw [List.map_append, List.sum_append, ihRest hRest (by simpa using hPlaced), totalOf_cons]
    congr 1
    simp only [here]
    split
    next hc => simpa using hVisible c _ hc
    next hc =>
      rw [Bool.not_eq_true] at hc
      split
      · rw [ihBelow hFirst.child hFirst.here.placed]
        exact (hHidden c hFirst hc).symm
      next hNone =>
        exact (eq_zero_of_shown hHidden hFirst (shownChildren_eq_zero.mpr ⟨hc, Nat.eq_zero_of_not_pos hNone⟩)).symm

omit hHidden

section Hidden

variable {c : Subtree} (h : c.All (Counted t.language)) (hc : t.isVisible c = false)
include h hc

theorem shownChildren_of_hidden : shownChildren t.language c = totalOf (shownChildren t.language) c.children :=
  (if_neg (by rw [← Bool.not_eq_true] at hc; exact hc)).trans h.here.shown

theorem shownBelow_of_hidden : shownBelow t.language c = totalOf (shownBelow t.language) c.children := by
  rw [← h.here.below, shownBelow, if_neg (by rw [← Bool.not_eq_true] at hc; exact hc), Nat.add_zero]

end Hidden

section Rows

variable (parent : NodeInfo) (start : Nat) (inherited : Option FieldId) (index : Nat)
  (h : ∀ c ∈ children, c.All (Counted t.language)) (hPlaced : offsets.length = children.length)
include h hPlaced

theorem length_shown :
    (shown t parent start inherited index offsets children).length = totalOf (shownChildren t.language) children := by
  have hSum := sum_shown (fun _ => shownChildren_of_hidden) (fun _ => 1) (fun c _ hc => (if_pos hc).symm)
    parent start inherited index h hPlaced
  simpa using hSum

end Rows

mutual

theorem length_belowIn (start : Nat) : ∀ s : Subtree, s.All (Counted t.language) →
    (belowIn t start s).length = s.info.visibleDescendants
  | .node info children, h => by
    rw [belowIn, length_belowAmong start info.offsets children h.child h.here.placed]
    exact h.here.below.symm

theorem length_belowAmong (start : Nat) : ∀ (offsets : List Nat) (children : List Subtree),
    (∀ c ∈ children, c.All (Counted t.language)) → offsets.length = children.length →
    (belowAmong t start offsets children).length = totalOf (shownBelow t.language) children
  | offsets, [], _, _ => by
    rw [belowAmong]
    rfl
  | offset :: offsets, .node info below :: rest, h, hPlaced => by
    obtain ⟨hFirst, hRest⟩ := List.forall_mem_cons.mp h
    rw [belowAmong, List.length_append, length_belowAmong start offsets rest hRest (by simpa using hPlaced), totalOf_cons]
    congr 1
    split
    next hc =>
      rw [List.length_cons, length_belowIn _ _ hFirst]
      exact (congrArg (info.visibleDescendants + ·) (if_pos hc)).symm
    next hc =>
      rw [Bool.not_eq_true] at hc
      split
      · exact (length_belowAmong _ info.offsets below hFirst.child hFirst.here.placed).trans
          (shownBelow_of_hidden hFirst hc).symm
      next hNone =>
        have hZero := shownChildren_eq_zero.mpr ⟨hc, Nat.eq_zero_of_not_pos hNone⟩
        exact (eq_zero_of_shown (fun _ => shownBelow_of_hidden) hFirst hZero).symm

end

end Counts

end Node

/-! ## What a cursor has ahead of it -/

/-- A frame over a subtree that counts its children, with such siblings after it. -/
structure CursorFrame.Counted (l : Language) (f : CursorFrame) : Prop where
  subtree : f.subtree.All (Subtree.Counted l)
  later : ∀ c ∈ f.later, c.All (Subtree.Counted l)
  placed : f.laterOffsets.length = f.later.length

def CursorFrame.node (t : Tree) (f : CursorFrame) : Node := ⟨t, f.subtree, f.start⟩

namespace TreeCursor

variable {t : Tree} {top parent : CursorFrame} {above : List CursorFrame} {offsets : List Nat} {children : List Subtree}

/-- What is shown by the siblings after `top`. -/
def after (t : Tree) (top parent : CursorFrame) (above : List CursorFrame) : List (Node × Option FieldId) :=
  Node.shown t parent.subtree.info parent.start (inherited t parent above) (Node.nextIndex top.index top.subtree)
    top.laterOffsets top.later

/-- The nodes after `top` below the same visible parent. -/
def following (t : Tree) (top : CursorFrame) : List CursorFrame → List (Node × Option FieldId)
  | [] => []
  | parent :: above =>
    after t top parent above ++ if above.isEmpty || t.isVisible parent.subtree then [] else following t parent above

/-- The nodes after `parent` below the same visible parent, if `parent` itself is hidden. -/
def beyond (t : Tree) (parent : CursorFrame) (above : List CursorFrame) : List (Node × Option FieldId) :=
  if above.isEmpty || t.isVisible parent.subtree then [] else following t parent above

/-- The nodes after everything below `top`. -/
def past (t : Tree) (top : CursorFrame) : List CursorFrame → List Node
  | [] => []
  | parent :: above => Node.spread (after t top parent above) ++ past t parent above

/-- The way down from `parent` to the first node of a row. -/
structure Enters (t : Tree) (parent : CursorFrame) (above : List CursorFrame) (row : List (Node × Option FieldId))
    (found : CursorFrame × List CursorFrame) : Prop where
  nonempty : found.2 ≠ []
  counted : ∀ f ∈ found.1 :: found.2, f.Counted t.language
  siblings : row ++ beyond t parent above = (found.1.node t, found.1.field) :: following t found.1 found.2
  places : Node.spread row ++ past t parent above =
    found.1.node t :: (found.1.node t).below ++ past t found.1 found.2
  up : shownAbove t found.2 = shownAbove t (parent :: above)

/-- A cursor goes down to the first node of a row, if there is one. -/
theorem firstShown_enters (hFrames : ∀ f ∈ parent :: above, f.Counted t.language) (index : Nat)
    (h : ∀ c ∈ children, c.All (Subtree.Counted t.language)) (hPlaced : offsets.length = children.length) :
    (firstShown t parent above index offsets children = none →
      Node.shown t parent.subtree.info parent.start (inherited t parent above) index offsets children = []) ∧
    ∀ found, firstShown t parent above index offsets children = some found → Enters t parent above
      (Node.shown t parent.subtree.info parent.start (inherited t parent above) index offsets children) found := by
  fun_induction firstShown t parent above index offsets children with
  | case1 => simp [Node.shown]
  | case2 =>
    rw [List.eq_nil_of_length_eq_zero hPlaced.symm]
    simp [Node.shown]
  | case3 parent above index offset offsets info below rest c field frame hVisible =>
    obtain ⟨hFirst, hRest⟩ := List.forall_mem_cons.mp h
    have hFrame : frame.Counted t.language := ⟨hFirst, hRest, Nat.succ.inj hPlaced⟩
    rw [Node.shown, if_pos hVisible]
    refine ⟨by simp, ?_⟩
    rintro found ⟨⟩
    refine ⟨List.cons_ne_nil _ _, List.forall_mem_cons.mpr ⟨hFrame, hFrames⟩, rfl, ?_, rfl⟩
    simp [Node.spread, past, after, frame, c, CursorFrame.node]
  | case4 parent above index offset offsets info below rest c field frame hHidden hSome ih =>
    obtain ⟨hFirst, hRest⟩ := List.forall_mem_cons.mp h
    have hFrame : frame.Counted t.language := ⟨hFirst, hRest, Nat.succ.inj hPlaced⟩
    obtain ⟨hNone, hDown⟩ := ih (List.forall_mem_cons.mpr ⟨hFrame, hFrames⟩) hFirst.child hFirst.here.placed
    rw [Node.shown, if_neg hHidden, if_pos hSome]
    have hInherited : inherited t frame (parent :: above) = field := by
      simp [inherited, frame, hHidden]
    rw [hInherited] at hNone hDown
    have hRow : Node.shown t info (parent.start + offset) field 0 info.offsets below ≠ [] := by
      have hLength := Node.length_shown info (parent.start + offset) field 0 hFirst.child hFirst.here.placed
      rw [← List.length_pos_iff]
      exact (hLength.trans hFirst.here.shown.symm).symm ▸ hSome
    refine ⟨fun h => absurd (hNone h) hRow, fun found hFound => ?_⟩
    obtain ⟨hNonempty, hCounted, hSiblings, hPlaces, hUp⟩ := hDown found hFound
    have hBeyond : beyond t frame (parent :: above) = following t frame (parent :: above) := by
      simp [beyond, frame, hHidden]
    refine ⟨hNonempty, hCounted, ?_, ?_, ?_⟩
    · rw [← hSiblings, hBeyond, List.append_assoc]
      rfl
    · rw [← hPlaces, Node.spread_append, List.append_assoc]
      rfl
    · rw [hUp, shownAbove]
      simp [frame, hHidden]
  | case5 parent above index offset offsets info below rest c hHidden hNone ih =>
    obtain ⟨hFirst, hRest⟩ := List.forall_mem_cons.mp h
    rw [Node.shown, if_neg hHidden, if_neg hNone]
    exact ih hFrames hRest (Nat.succ.inj hPlaced)

theorem laterShown_enters (h : ∀ f ∈ top :: parent :: above, f.Counted t.language) :
    (laterShown t top parent above = none → after t top parent above = []) ∧
    ∀ found, laterShown t top parent above = some found → Enters t parent above (after t top parent above) found := by
  obtain ⟨hTop, hFrames⟩ := List.forall_mem_cons.mp h
  exact firstShown_enters hFrames _ hTop.later hTop.placed

/-- A walk goes on to the first of the nodes after everything below the current one. -/
theorem pastShown_past (h : ∀ f ∈ top :: above, f.Counted t.language) :
    (Preorder.pastShown t top above = none → past t top above = []) ∧
    ∀ found, Preorder.pastShown t top above = some found → (∀ f ∈ found.1 :: found.2, f.Counted t.language) ∧
      past t top above = found.1.node t :: (found.1.node t).below ++ past t found.1 found.2 := by
  induction above generalizing top with
  | nil => simp [Preorder.pastShown, past]
  | cons parent above ih =>
    obtain ⟨hNone, hSome⟩ := laterShown_enters h
    rw [Preorder.pastShown]
    split
    next found hFound =>
      have hEnters := hSome found hFound
      refine ⟨by simp, ?_⟩
      rintro _ ⟨⟩
      exact ⟨hEnters.counted, hEnters.places⟩
    next hLater =>
      rw [past, hNone hLater]
      exact ih fun f hf => h f (List.mem_cons_of_mem _ hf)

/-! ## Stops among siblings -/

/-- The stops of a cursor that goes from sibling to sibling until there is no next one, and then stays where it is. -/
inductive Visits : TreeCursor → List TreeCursor → Prop
  | last {c : TreeCursor} : c.goto nextSibling? = (false, c) → Visits c [c]
  | next {c c' : TreeCursor} {stops : List TreeCursor} : c.goto nextSibling? = (true, c') → Visits c' stops →
    Visits c (c :: stops)

/-- The stops of a cursor from a node's first child on. -/
def Stops (n : Node) (stops : List TreeCursor) : Prop :=
  ((ofNode n).goto firstChild? = (false, ofNode n) ∧ stops = []) ∨
    ∃ c, (ofNode n).goto firstChild? = (true, c) ∧ c.Visits stops

/-- A stop with the field that it fills. -/
def stop (c : TreeCursor) : Node × Option FieldId := (c.node, c.fieldId?)

theorem counted_ofNode {n : Node} (h : n.subtree.All (Subtree.Counted n.tree.language)) :
    ∀ f ∈ (ofNode n).top :: (ofNode n).above, f.Counted n.tree.language := by
  intro f hf
  rw [List.mem_singleton.mp hf]
  exact ⟨h, by simp [ofNode], rfl⟩

end TreeCursor

/-! ## Preorder -/

namespace Preorder

variable {c : TreeCursor}

/-- The nodes of a walk from a cursor on. -/
def ahead (c : TreeCursor) : List Node := c.node :: c.node.below ++ TreeCursor.past c.tree c.top c.above

theorem advance_plain (c : TreeCursor) : advance ⟨some c, []⟩ = ⟨c.firstChild? <|> past? c, []⟩ := by
  have hLimit : ∃ limit, ((c.top :: c.above).getLast?.map fun frame => frame.subtree.info.visibleDescendants + 1).getD 0 =
      limit + 1 := by
    rw [List.getLast?_cons, Option.map_some, Option.getD_some]
    exact ⟨_, rfl⟩
  obtain ⟨limit, hLimit⟩ := hLimit
  rw [advance, Option.bind_some]
  dsimp only
  rw [hLimit]
  cases c.firstChild? <|> past? c with
  | none => simp [seek]
  | some c => simp [seek, wanted]

/-- The walk comes to the next of its nodes. -/
theorem ahead_next (h : ∀ f ∈ c.top :: c.above, f.Counted c.tree.language) :
    ((c.firstChild? <|> past? c) = none → ahead c = [c.node]) ∧
    ∀ c', (c.firstChild? <|> past? c) = some c' →
      (∀ f ∈ c'.top :: c'.above, f.Counted c'.tree.language) ∧ ahead c = c.node :: ahead c' := by
  obtain ⟨t, top, above⟩ := c
  dsimp only at h
  have hTop := (h top List.mem_cons_self).subtree
  have hBelow : (top.node t).below = Node.spread (Node.shown t top.subtree.info top.start
      (TreeCursor.inherited t top above) 0 top.subtree.info.offsets top.subtree.children) := by
    rw [Node.below_eq]
    exact (Node.belowAmong_eq t _ top.start none 0 _ _).symm.trans (Node.belowAmong_eq ..)
  have hAhead : ahead ⟨t, top, above⟩ = top.node t :: (top.node t).below ++ TreeCursor.past t top above := rfl
  obtain ⟨hNone, hSome⟩ := TreeCursor.firstShown_enters h 0 hTop.child hTop.here.placed
  rw [hAhead, hBelow, TreeCursor.firstChild?, past?]
  dsimp only
  cases hFirst : TreeCursor.firstShown t top above 0 top.subtree.info.offsets top.subtree.children with
  | some found =>
    refine ⟨by simp, ?_⟩
    rintro c' ⟨⟩
    have hEnters := hSome found hFirst
    exact ⟨hEnters.counted, congrArg (top.node t :: ·) hEnters.places⟩
  | none =>
    rw [hNone hFirst]
    obtain ⟨hEnd, hPast⟩ := TreeCursor.pastShown_past h
    cases hLater : pastShown t top above with
    | none =>
      rw [hEnd hLater]
      exact ⟨fun _ => rfl, by simp⟩
    | some found =>
      refine ⟨by simp, ?_⟩
      rintro c' ⟨⟩
      obtain ⟨hCounted, hPlaces⟩ := hPast found hLater
      exact ⟨hCounted, congrArg (top.node t :: ·) hPlaces⟩

theorem take_ahead {limit : Nat} (h : ∀ f ∈ c.top :: c.above, f.Counted c.tree.language) (hLimit : limit = (ahead c).length) :
    ((take limit ⟨some c, []⟩).1.map (·.node) = ahead c) ∧ (take limit ⟨some c, []⟩).2.next = none := by
  induction limit generalizing c with
  | zero => simp [ahead] at hLimit
  | succ limit ih =>
    obtain ⟨hNone, hSome⟩ := ahead_next h
    rw [take]
    dsimp only
    rw [advance_plain]
    cases hNext : c.firstChild? <|> past? c with
    | none =>
      rw [hNone hNext] at hLimit ⊢
      cases limit with
      | zero => simp [take]
      | succ => simp at hLimit
    | some c' =>
      obtain ⟨hCounted, hAhead⟩ := hSome c' hNext
      rw [hAhead] at hLimit ⊢
      obtain ⟨hList, hEnd⟩ := ih hCounted (Nat.succ.inj hLimit)
      exact ⟨by rw [List.map_cons, hList], hEnd⟩

end Preorder

namespace Node

/-- The nodes that a walk from a node visits. -/
def walk (n : Node) : List Node := (Preorder.all n []).map (·.node)

variable {n : Node} (h : n.subtree.All (Counted n.tree.language))
include h

theorem take_walk : n.walk = n :: n.below ∧ n.walk.length = n.descendantCount ∧
    ((Preorder.ofNode n []).take n.descendantCount).2.next = none := by
  have hStart : Preorder.ofNode n [] = ⟨some (.ofNode n), []⟩ := by simp [Preorder.ofNode, Preorder.wanted]
  have hAhead : Preorder.ahead (.ofNode n) = n :: n.below := List.append_nil _
  have hCount : n.descendantCount = (n :: n.below).length := by
    rw [List.length_cons, below, length_belowIn n.start n.subtree h]
    rfl
  obtain ⟨hList, hEnd⟩ := Preorder.take_ahead (c := .ofNode n) (TreeCursor.counted_ofNode h) (hAhead ▸ hCount)
  have hWalk : n.walk = n :: n.below := by rw [walk, Preorder.all, hStart, hList, hAhead]
  exact ⟨hWalk, by rw [hWalk, hCount], by rw [hStart, hEnd]⟩

end Node

end Reparse
