import Reparse.Proofs.Tree.Recorded
import Reparse.Proofs.Parse.Coverage
/-!
# Offsets of edited trees

A node's size after an edit comes from the edit alone, those of its children from edits of their own.
`Tree.edited_tiles` says that the two agree. It is about the edit in 32-bit offsets as well: `edited?` goes through
the same tree, but has no answer where a difference would be negative, a sum too large, or the children would not
fill their parent.
-/
namespace Reparse

/-- A difference of offsets, none if it is negative. -/
def minus? (a b : Nat) : Option Nat := if b ≤ a then some (a - b) else none

/-- A sum of offsets, none if it is too large for one. -/
def plus? (a b : Nat) : Option Nat := if a + b ≤ maxOffset then some (a + b) else none

theorem minus?_eq {a b : Nat} (h : b ≤ a) : minus? a b = some (a - b) := if_pos h

theorem plus?_eq {a b : Nat} (h : a + b ≤ maxOffset) : plus? a b = some (a + b) := if_pos h

namespace Edit

variable {e : Edit}

def shifted? (e : Edit) (offset : Nat) : Option Edit := do
  return ⟨← minus? e.start offset, ← minus? e.oldEnd offset, ← minus? e.newEnd offset⟩

def resized? (e : Edit) (size : Nat) : Option Nat :=
  if size < e.start then some size
  else if e.oldEnd ≤ size then do plus? (← minus? size e.oldEnd) e.newEnd
  else some e.newEnd

theorem shifted?_eq (he : e.Ordered) {offset : Nat} (h : offset ≤ e.start) :
    e.shifted? offset = some (e.shifted offset) := by
  obtain ⟨hOld, hNew⟩ := he
  rw [shifted?, minus?_eq h, minus?_eq (Nat.le_trans h hOld), minus?_eq (Nat.le_trans h hNew)]
  rfl

theorem resized?_eq {size : Nat} (h : e.resized size ≤ maxOffset) : e.resized? size = some (e.resized size) := by
  rw [resized] at h ⊢
  rw [resized?]
  split
  · rfl
  · rename_i hStart
    rw [if_neg hStart] at h
    split
    · rename_i hOld
      rw [if_pos hOld] at h
      rw [minus?_eq hOld, Option.bind_eq_bind, Option.bind_some, plus?_eq h]
    · rfl

theorem resized_le (he : e.Ordered) {a b : Nat} (h : a ≤ b) : e.resized a ≤ e.resized b := by
  obtain ⟨hOld, hNew⟩ := he
  simp only [resized]
  repeat' split
  all_goals omega

theorem resized_clamped (e : Edit) (size : Nat) :
    (e.clamped size).resized size = size - (e.clamped size).oldEnd + (e.clamped size).newEnd := by
  have hOld : (e.clamped size).oldEnd ≤ size := Nat.min_le_right _ _
  have hStart : (e.clamped size).start ≤ (e.clamped size).oldEnd := Nat.min_le_right _ _
  rw [resized, if_neg (by omega), if_pos hOld]

end Edit

namespace Subtree

/-! ## The edit in checked arithmetic -/

/-- The starts of things of these sizes, and where the last one ends. -/
def sums? (start : Nat) : List Nat → Option (List Nat × Nat)
  | [] => some ([], start)
  | n :: rest => do
    let (sums, stop) ← sums? (← plus? start n) rest
    return (start :: sums, stop)

def isTouched? (e : Edit) (absorbed : Bool) (offset : Nat) (c : Subtree) : Option Bool := do
  let _ ← plus? (← plus? offset c.size) c.lookahead
  return isTouched e absorbed offset c

def share? (e : Edit) (absorbed : Bool) (offset : Nat) (c : Subtree) : Option Edit :=
  if absorbed then do return ⟨0, min (← minus? e.oldEnd offset) c.size, 0⟩ else e.shifted? offset

/-- The node after its children were edited, which have to fill it. -/
def rebuilt? (info : NodeInfo) (e : Edit) (id : NodeId) (children : List Subtree) : Option Subtree := do
  let size ← e.resized? info.size
  let (offsets, stop) ← sums? 0 (children.map Subtree.size)
  if children = [] ∨ stop = size then return node { info with id, size, hasChanges := true, offsets } children
  else none

mutual

def edited? (e : Edit) (id : NodeId) : Subtree → Option (Subtree × NodeId)
  | node info children => do
    let (children, id) ← editedAmong? e false id info.offsets children
    return (← rebuilt? info e id children, id + 1)

def editedAmong? (e : Edit) (absorbed : Bool) (id : NodeId) :
    (offsets : List Nat) → List Subtree → Option (List Subtree × NodeId)
  | offset :: offsets, c :: rest => do
    if ← isTouched? e absorbed offset c then
      let (c', id) ← edited? (← share? e absorbed offset c) id c
      let (rest, id) ← editedAmong? e (absorbed || e.start ≤ offset + c.size) id offsets rest
      return (c' :: rest, id)
    else
      let (rest, id) ← editedAmong? e absorbed id offsets rest
      return (c :: rest, id)
  | [], _ :: _ => none
  | _, [] => some ([], id)

end

/-! ## Checks that pass -/

/-- Where the lookahead of each child ends, relative to the node, is an offset. -/
def WindowsFit (_ : NodeInfo) (children : List Subtree) : Prop :=
  ∀ entry ∈ laid 0 children, entry.1 + entry.2.size + entry.2.lookahead ≤ maxOffset

variable {e : Edit} {absorbed : Bool} {q q' : Nat} {c : Subtree} {info : NodeInfo} {children : List Subtree}

/-- In a parsed tree no lookahead reaches further than that of the root. -/
theorem All.windowsFit {s : Subtree} (h : s.All Sound) (hEnd : s.size + s.lookahead ≤ maxOffset) : s.All WindowsFit := by
  induction s using inductionOn with
  | node info children ih =>
    have hWindows := h.here.windows
    refine .node (fun entry hEntry => Nat.le_trans (hWindows entry hEntry) hEnd) fun c hc => ih c hc (h.child c hc) ?_
    obtain ⟨p, hp⟩ := mem_laid_of_mem (q := 0) hc
    have hWindow := hWindows _ hp
    dsimp only [info_node] at hWindow
    change info.size + info.lookahead ≤ maxOffset at hEnd
    omega

theorem sums?_eq {start : Nat} (h : start + totalOf size children ≤ maxOffset) :
    sums? start (children.map size) = some (runningSums start (children.map size), start + totalOf size children) := by
  induction children generalizing start with
  | nil => rfl
  | cons c rest ih =>
    rw [totalOf_cons] at h
    rw [List.map_cons, sums?, runningSums, plus?_eq (by omega), Option.bind_eq_bind, Option.bind_some, ih (by omega),
      totalOf_cons, Nat.add_assoc]
    rfl

theorem isTouched?_eq (h : q + c.size + c.lookahead ≤ maxOffset) :
    isTouched? e absorbed q c = some (isTouched e absorbed q c) := by
  have hStop : q + c.size ≤ maxOffset := by omega
  rw [isTouched?, plus?_eq hStop, Option.bind_eq_bind, Option.bind_some, plus?_eq h]
  rfl

/-- Before the replacement is taken no child starts after the edit does; then none that is touched starts after its
old end. -/
theorem Stage.share?_eq (he : e.Ordered) (hStage : Stage e absorbed q q') (hTouches : e.Touches q c) :
    share? e absorbed q c = some (share e absorbed q c) := by
  cases absorbed with
  | false =>
    have hStart : q ≤ e.start := by
      rcases hStage with ⟨_, hStart, _⟩ | ⟨hAbsorbed, _⟩
      · exact hStart
      · cases hAbsorbed
    exact Edit.shifted?_eq he hStart
  | true =>
    change (do return Edit.mk 0 (min (← minus? e.oldEnd q) c.size) 0) = _
    rw [minus?_eq hTouches.2]
    rfl

theorem rebuilt?_eq {id : NodeId} (hSize : e.resized info.size ≤ maxOffset)
    (hTotal : children ≠ [] → e.resized info.size = totalOf size children) :
    rebuilt? info e id children = some (rebuilt info e id children) := by
  have hFits : 0 + totalOf size children ≤ maxOffset := by
    by_cases hNil : children = []
    · subst hNil
      exact Nat.zero_le _
    · rwa [Nat.zero_add, ← hTotal hNil]
  have hFills : children = [] ∨ 0 + totalOf size children = e.resized info.size := by
    by_cases hNil : children = []
    · exact .inl hNil
    · exact .inr (by rw [Nat.zero_add, hTotal hNil])
  rw [rebuilt?, Edit.resized?_eq hSize, sums?_eq hFits]
  exact if_pos hFills

/-- One row, if the checks pass within its children. No size exceeds the end of the row after the edit. -/
theorem editedAmong?_eq (he : e.Ordered) (hStage : Stage e absorbed q q') (id : NodeId)
    (hWindows : ∀ entry ∈ laid q children, entry.1 + entry.2.size + entry.2.lookahead ≤ maxOffset)
    (hRow : e.resized (q + totalOf size children) ≤ maxOffset)
    (hEach : ∀ c ∈ children, ∀ e' : Edit, e'.Ordered → e'.resized c.size ≤ maxOffset → ∀ id,
      edited? e' id c = some (edited e' id c)) :
    editedAmong? e absorbed id (runningSums q (children.map size)) children =
      some (editedAmong e absorbed id (runningSums q (children.map size)) children) := by
  induction children generalizing absorbed q q' id with
  | nil => simp [editedAmong?, editedAmong]
  | cons c rest ih =>
    have hWindow := hWindows _ List.mem_cons_self
    have hRest := fun entry hEntry => hWindows entry (List.mem_cons_of_mem _ hEntry)
    have hEachRest := fun d hd => hEach d (List.mem_cons_of_mem _ hd)
    rw [totalOf_cons, ← Nat.add_assoc] at hRow
    rw [List.map_cons, runningSums, editedAmong?, editedAmong, isTouched?_eq hWindow, Option.bind_eq_bind,
      Option.bind_some]
    by_cases hTouches : e.Touches q c
    · have hTouched := hStage.isTouched_iff.mpr hTouches
      obtain ⟨_, hNext, hEnd⟩ := hStage.touched he hTouches id
      have hShare : (share e absorbed q c).Ordered := by
        cases absorbed with
        | false => exact he.shifted q
        | true => exact Edit.ordered_cut _
      have hFits : (share e absorbed q c).resized c.size ≤ maxOffset := by
        rw [← size_edited _ id]
        calc (edited (share e absorbed q c) id c).1.size ≤ e.resized (q + c.size) := by omega
          _ ≤ e.resized (q + c.size + totalOf size rest) := Edit.resized_le he (Nat.le_add_right _ _)
          _ ≤ maxOffset := hRow
      rw [if_pos hTouched, if_pos hTouched, hStage.share?_eq he hTouches, Option.bind_eq_bind, Option.bind_some,
        hEach c List.mem_cons_self _ hShare hFits]
      have hAmong := ih hNext (edited (share e absorbed q c) id c).2 hRest hRow hEachRest
      simp only [Option.bind_eq_bind, Option.bind_some, hAmong]
      rfl
    · have hTouched : ¬isTouched e absorbed q c = true := mt hStage.isTouched_iff.mp hTouches
      obtain ⟨_, hNext, _⟩ := hStage.untouched he hTouches
      rw [if_neg hTouched, if_neg hTouched, ih hNext _ hRest hRow hEachRest]
      rfl

/-- No check fails below a node whose new size is an offset. -/
theorem edited?_eq {s : Subtree} (h : s.Laid) (hWindows : s.All WindowsFit) (he : e.Ordered)
    (hSize : e.resized s.size ≤ maxOffset) (id : NodeId) : edited? e id s = some (edited e id s) := by
  induction s using inductionOn generalizing e id with
  | node info children ih =>
    have hTiled : Tiled info children := h.here
    let row := editedAmong e false id (runningSums 0 (children.map size)) children
    have hFills : row.1 ≠ [] → e.resized info.size = totalOf size row.1 := by
      have hSizes := (tiled_edited he hTiled id).size
      rw [edited, hTiled.offsets] at hSizes
      exact hSizes
    have hEach : ∀ c ∈ children, ∀ e' : Edit, e'.Ordered → e'.resized c.size ≤ maxOffset → ∀ id,
        edited? e' id c = some (edited e' id c) := by
      intro c hc e' he' hFits id'
      exact ih c hc (h.child c hc) (hWindows.child c hc) he' hFits id'
    have hRow : e.resized (0 + totalOf size children) ≤ maxOffset := by
      by_cases hNil : children = []
      · subst hNil
        refine Nat.le_trans (Edit.resized_le he (Nat.zero_le _)) hSize
      · rw [Nat.zero_add, ← hTiled.size hNil]
        exact hSize
    have hFit : WindowsFit info children := hWindows.here
    have hAmong := editedAmong?_eq he (.inl ⟨rfl, Nat.zero_le _, rfl⟩) id hFit hRow hEach
    have hNode : rebuilt? info e row.2 row.1 = some (rebuilt info e row.2 row.1) := rebuilt?_eq hSize hFills
    rw [edited?, edited, hTiled.offsets, hAmong]
    change (do return (← rebuilt? info e row.2 row.1, row.2 + 1)) = _
    rw [hNode]
    rfl

/-! ## Places before and after -/

/-- What becomes of the subtree at the end of a path: it records what it did but for its size and the places of its
children, of which it has as many. A start before the edit stays; other starts, and all ends, move with the bytes. -/
structure Carried (e : Edit) (old new : Nat × Subtree) : Prop where
  retains : Retains new.2 old.2
  children : new.2.children.length = old.2.children.length
  start : (old.1 ≤ e.start ∧ new.1 = old.1) ∨ (e.start ≤ old.1 ∧ new.1 = e.resized old.1)
  stop : new.1 + new.2.size = e.resized (old.1 + old.2.size)

/-- What ends before the edit, and is touched in its lookahead at most, stays in place and keeps its size. -/
theorem Carried.before {old new : Nat × Subtree} (h : Carried e old new) (hBefore : old.1 + old.2.size < e.start) :
    new.1 = old.1 ∧ new.2.size = old.2.size := by
  have hStart : new.1 = old.1 := by
    rcases h.start with ⟨_, hStart⟩ | ⟨hAfter, _⟩
    · exact hStart
    · omega
  have hStop := h.stop
  rw [Edit.resized, if_pos hBefore] at hStop
  exact ⟨hStart, by omega⟩

/-- A child that is kept, with all below it. -/
theorem carried_of_moves (he : e.Ordered) (h : e.Moves q c q') {r : Nat} {d : Subtree} (hWithin : r + d.size ≤ c.size) :
    Carried e (q + r, d) (q' + r, d) := by
  obtain ⟨hOld, hNew⟩ := he
  refine ⟨⟨_, _, _, _, rfl⟩, rfl, ?_, ?_⟩
  · rcases h with ⟨hBefore, rfl⟩ | ⟨hAfter, hMoved⟩
    · exact .inl ⟨by dsimp only; omega, rfl⟩
    · refine .inr ⟨by dsimp only; omega, ?_⟩
      dsimp only [Edit.resized]
      rw [if_neg (by omega), if_pos (by omega)]
      omega
  · rcases h with ⟨hBefore, rfl⟩ | ⟨hAfter, hMoved⟩
    · dsimp only [Edit.resized]
      rw [if_pos (by omega)]
    · dsimp only [Edit.resized]
      rw [if_neg (by omega), if_pos (by omega)]
      omega

/-- Below a child that takes the edit relative to itself. -/
theorem Carried.within (he : e.Ordered) (hStart : q ≤ e.start) {r r' : Nat} {d d' : Subtree}
    (h : Carried (e.shifted q) (r, d) (r', d')) : Carried e (q + r, d) (q + r', d') := by
  obtain ⟨hOld, hNew⟩ := he
  have hMoves (x : Nat) : q + (e.shifted q).resized x = e.resized (q + x) := by
    rw [Edit.resized, Edit.resized, Edit.shifted]
    dsimp only
    split_ifs <;> omega
  refine ⟨h.retains, h.children, ?_, ?_⟩
  · rcases h.start with ⟨hBefore, hSame⟩ | ⟨hAfter, hMoved⟩
    · dsimp only [Edit.shifted] at hBefore hSame ⊢
      exact .inl ⟨by omega, by omega⟩
    · dsimp only [Edit.shifted] at hAfter hMoved ⊢
      exact .inr ⟨by omega, by rw [hMoved]; exact hMoves r⟩
  · have hStop := h.stop
    dsimp only at hStop ⊢
    rw [Nat.add_assoc, hStop, hMoves, Nat.add_assoc]

/-- Below a child that loses bytes at its start. -/
theorem Carried.cut (hStart : e.start ≤ q) (hOld : q ≤ e.oldEnd) {size r r' : Nat} {d d' : Subtree}
    (hWithin : r + d.size ≤ size) (h : Carried ⟨0, min (e.oldEnd - q) size, 0⟩ (r, d) (r', d')) :
    Carried e (q + r, d) (e.newEnd + r', d') := by
  have hMoves {x : Nat} (hx : x ≤ size) :
      e.newEnd + (Edit.mk 0 (min (e.oldEnd - q) size) 0).resized x = e.resized (q + x) := by
    simp only [Edit.resized]
    repeat' split
    all_goals omega
  refine ⟨h.retains, h.children, ?_, ?_⟩
  · refine .inr ⟨by dsimp only; omega, ?_⟩
    dsimp only
    rw [← hMoves (by omega)]
    rcases h.start with ⟨hBefore, hSame⟩ | ⟨_, hMoved⟩
    · dsimp only at hBefore hSame
      obtain rfl : r = 0 := by omega
      have hStays : (Edit.mk 0 (min (e.oldEnd - q) size) 0).resized 0 = 0 := by
        rw [Edit.resized, if_neg (Nat.lt_irrefl 0)]
        split
        · exact Nat.zero_sub _
        · rfl
      rw [hSame, hStays]
    · exact congrArg _ hMoved
  · have hStop := h.stop
    dsimp only at hStop ⊢
    rw [Nat.add_assoc, hStop, hMoves hWithin, Nat.add_assoc]

theorem length_children_edited {s : Subtree} (h : Tiled s.info s.children) (he : e.Ordered) (id : NodeId) :
    (edited e id s).1.children.length = s.children.length := by
  have hLength := (follows_edited he h id).length_eq
  rw [length_laid, length_laid, node_eta] at hLength
  exact hLength.symm

/-- Paths lead to subtrees after an edit exactly if they did before. -/
theorem edited_carried {s : Subtree} (h : s.Laid) (he : e.Ordered) (id : NodeId) (path : List Nat) :
    Option.Rel (Carried e) (s.at? 0 path) ((edited e id s).1.at? 0 path) := by
  induction path generalizing s e id with
  | nil =>
    refine .some ⟨retains_edited e id s, length_children_edited h.here he id, .inl ⟨Nat.zero_le _, rfl⟩, ?_⟩
    dsimp only
    rw [Nat.zero_add, Nat.zero_add, size_edited]
  | cons i path ih =>
    have hRel := forall₂_getElem? (follows_edited he h.here id) i
    rw [node_eta] at hRel
    rw [at?_cons h.here, at?_cons (laid_edited h he id).here]
    generalize hEntry : (laid 0 s.children)[i]? = entry at hRel
    generalize (laid 0 (edited e id s).1.children)[i]? = entry' at hRel
    cases hRel with
    | none => exact .none
    | @some entry entry' hFollows =>
      have hLaid : entry.2.Laid := h.child _ (mem_of_mem_laid (List.mem_of_getElem? hEntry))
      change Option.Rel _ (entry.2.at? entry.1 path) (entry'.2.at? entry'.1 path)
      cases hFollows with
      | @kept q q' c hMoves =>
        refine rel_at?_add (R := fun a b => a = b) hLaid hLaid q q' ?_ ?_
        · cases c.at? 0 path with
          | none => exact .none
          | some entry => exact .some rfl
        · intro r d _ _ hAt hEq
          obtain ⟨rfl, rfl⟩ := Prod.mk.inj hEq
          have hWithin := (at?_within hLaid hAt).2.1
          rw [Nat.zero_add] at hWithin
          exact carried_of_moves he hMoves hWithin
      | @within q q' c id' _ hStart hSame =>
        have he' := he.shifted q
        subst hSame
        refine rel_at?_add hLaid (laid_edited hLaid he' id') q' q' (ih hLaid he' id') ?_
        intro r d r' d' _ hCarried
        exact hCarried.within he hStart
      | @cut q q' c id' hTouches hStart hNew =>
        have he' := Edit.ordered_cut (min (e.oldEnd - q) c.size)
        subst hNew
        refine rel_at?_add hLaid (laid_edited hLaid he' id') q _ (ih hLaid he' id') ?_
        intro r d r' d' hAt hCarried
        have hWithin := (at?_within hLaid hAt).2.1
        rw [Nat.zero_add] at hWithin
        exact hCarried.cut hStart hTouches.2 hWithin

end Subtree

namespace Tree

/-- The edit of a whole tree in checked arithmetic. -/
def edited? (t : Tree) (e : Edit) (id : NodeId) : Option (Tree × NodeId) := do
  let (root, id) ← t.root.edited? (e.clamped t.size) id
  return ({ t with root }, id)

/-- An edit of a tree whose nodes are tiled by their children, whatever its three offsets are, as long as the new length
and the ends of the lookaheads are offsets: no difference is negative and no sum too large, the length changes by what
the edit adds and takes away, and the tree has the same nodes, each tiled by its children. -/
theorem edited_tiles (t : Tree) (h : t.root.Laid) (hWindows : t.root.All Subtree.WindowsFit) (e : Edit)
    (hLength : t.size - (e.clamped t.size).oldEnd + (e.clamped t.size).newEnd ≤ maxOffset) (id : NodeId) :
    t.edited? e id = some (t.edited e id) ∧
    (t.edited e id).1.size = t.size - (e.clamped t.size).oldEnd + (e.clamped t.size).newEnd ∧
    (t.edited e id).1.root.Laid ∧
    (∀ path, Option.Rel (Subtree.Carried (e.clamped t.size)) (t.root.at? 0 path) ((t.edited e id).1.root.at? 0 path)) ∧
    ∀ path p s p' s', t.root.at? 0 path = some (p, s) → (t.edited e id).1.root.at? 0 path = some (p', s') →
      p + s.size < (e.clamped t.size).start → p' = p ∧ s'.size = s.size := by
  have he : (e.clamped t.size).Ordered := e.ordered_clamped t.size
  have hResized : (e.clamped t.size).resized t.root.size = _ := e.resized_clamped t.size
  have hCarried := fun path => Subtree.edited_carried h he id path
  refine ⟨?_, ?_, Subtree.laid_edited h he id, hCarried, ?_⟩
  · rw [edited?, Subtree.edited?_eq h hWindows he (hResized.trans_le hLength) id]
    rfl
  · exact (Subtree.size_edited _ id t.root).trans hResized
  · intro path p s p' s' hAt hAt' hBefore
    have hRel := hCarried path
    rw [hAt] at hRel
    change Option.Rel _ _ ((t.edited e id).1.root.at? 0 path) at hRel
    rw [hAt'] at hRel
    cases hRel with
    | some hHere => exact hHere.before hBefore

/-- Offsets out of order and past the end: what is left of the edit puts seven bytes behind `aa`. -/
theorem repeated_edited_tiles : ∃ parsed : Parser.Parsed Unit,
    Parser.repeated.parse 20 (Parser.plainHost "aa".toUTF8) () none 0 = some parsed ∧
    parsed.tree.edited? ⟨9, 8, 9⟩ 7 = some (parsed.tree.edited ⟨9, 8, 9⟩ 7) ∧
    (parsed.tree.edited ⟨9, 8, 9⟩ 7).1.size = 9 := by
  have hParse : ((Parser.repeated.parse 20 (Parser.plainHost "aa".toUTF8) () none 0).map fun parsed =>
      (parsed.tree.size, parsed.tree.root.lookahead)) = some (2, 0) := by decide +kernel
  obtain ⟨parsed, hParsed, hExtent⟩ := Option.map_eq_some_iff.mp hParse
  obtain ⟨hSize, hLookahead⟩ := Prod.mk.inj hExtent
  have hSound := (parse_sound Parser.repeated_builtFrom (Parser.plainHost_serves _) trivial
    (fun _ hTree => absurd hTree (Option.not_mem_none _)) hParsed).1
  have hWindows : parsed.tree.root.All Subtree.WindowsFit := by
    apply hSound.windowsFit
    change parsed.tree.size + _ ≤ _
    rw [hSize, hLookahead]
    decide
  have hLength : parsed.tree.size - (Edit.clamped ⟨9, 8, 9⟩ parsed.tree.size).oldEnd +
      (Edit.clamped ⟨9, 8, 9⟩ parsed.tree.size).newEnd = 9 := by
    rw [hSize]
    decide
  obtain ⟨hChecked, hNewSize, -⟩ := edited_tiles parsed.tree hSound.kept.laid hWindows ⟨9, 8, 9⟩
    (hLength.trans_le (by decide)) 7
  exact ⟨parsed, hParsed, hChecked, hNewSize.trans hLength⟩

end Tree
end Reparse
