import Reparse.Proofs.Tree.Tiling
import Reparse.Tree.Edited
import Mathlib
/-!
# Edited subtrees

An edit is carried down a tree relative to each node. `edited_at` says what becomes of the subtree at the
end of a path of child indexes: it is built anew and flagged exactly if the edit touches its range or its
lookahead, and an untouched one is the same subtree, moved along with the bytes that it depends on. This
needs that edits keep the children of every node in a row, and that what an unflagged subtree depends on
lies within what the nodes around it depend on, which edits preserve.
-/
namespace Reparse

namespace Edit

/-- The ends of the edit do not lie before its start. -/
def Ordered (e : Edit) : Prop := e.start ≤ e.oldEnd ∧ e.start ≤ e.newEnd

theorem Ordered.shifted {e : Edit} (h : e.Ordered) (offset : Nat) : (e.shifted offset).Ordered := by
  obtain ⟨hOld, hNew⟩ := h
  simp only [Ordered, Edit.shifted]
  omega

theorem ordered_cut (n : Nat) : Edit.Ordered ⟨0, n, 0⟩ := ⟨Nat.zero_le _, Nat.le_refl _⟩

theorem ordered_clamped (e : Edit) (size : Nat) : (e.clamped size).Ordered := by
  simp only [Ordered, clamped]
  omega

/-- The edit touches the range or the lookahead of a subtree that starts at `p`. -/
def Touches (e : Edit) (p : Nat) (s : Subtree) : Prop := e.start ≤ p + s.size + s.lookahead ∧ p ≤ e.oldEnd

/-- A subtree that the edit does not touch starts at `p` before and at `p'` after it: what it depends on lies
before the edit, or the subtree lies after it. -/
def Moves (e : Edit) (p : Nat) (s : Subtree) (p' : Nat) : Prop :=
  (p + s.size + s.lookahead < e.start ∧ p' = p) ∨ (e.oldEnd < p ∧ p' + e.oldEnd = p + e.newEnd)

end Edit

namespace Subtree

/-! ## Paths -/

/-- The subtree at the end of a path of child indexes, with its start. -/
def at? (start : Nat) (s : Subtree) : List Nat → Option (Nat × Subtree)
  | [] => some (start, s)
  | i :: path => ((s.positioned start)[i]?).bind fun entry => entry.2.at? entry.1 path

theorem map_add_runningSums (start shift : Nat) (sizes : List Nat) :
    (runningSums start sizes).map (shift + ·) = runningSums (shift + start) sizes := by
  induction sizes generalizing start with
  | nil => rfl
  | cons n rest ih => simp [runningSums, ih, Nat.add_assoc]

theorem Tiled.positioned_eq {s : Subtree} (h : Tiled s.info s.children) (start : Nat) :
    s.positioned start = laid start s.children := by
  rw [positioned, h.offsets, map_add_runningSums, zip_runningSums, Nat.add_zero]

theorem map_laid (shift start : Nat) (children : List Subtree) :
    (laid start children).map (fun entry => (shift + entry.1, entry.2)) = laid (shift + start) children := by
  induction children generalizing start with
  | nil => rfl
  | cons c rest ih => simp [laid, ih, Nat.add_assoc]

theorem getElem?_laid_add (shift start : Nat) (children : List Subtree) (i : Nat) :
    (laid (shift + start) children)[i]? = (laid start children)[i]?.map fun entry => (shift + entry.1, entry.2) := by
  rw [← map_laid, List.getElem?_map]

/-- All nodes are tiled by their children. -/
def Laid (s : Subtree) : Prop := s.All Tiled

theorem at?_cons {s : Subtree} (h : Tiled s.info s.children) (start i : Nat) (path : List Nat) :
    s.at? start (i :: path) = ((laid start s.children)[i]?).bind fun entry => entry.2.at? entry.1 path := by
  rw [at?, h.positioned_eq]

theorem at?_add {s : Subtree} (h : s.Laid) (shift start : Nat) (path : List Nat) :
    s.at? (shift + start) path = (s.at? start path).map fun entry => (shift + entry.1, entry.2) := by
  induction path generalizing s start with
  | nil => rfl
  | cons i path ih =>
    rw [at?_cons h.here, at?_cons h.here, getElem?_laid_add]
    cases hEntry : (laid start s.children)[i]? with
    | none => rfl
    | some entry => exact ih (h.child _ (mem_of_mem_laid (List.mem_of_getElem? hEntry))) entry.1

theorem at?_within {s : Subtree} (h : s.Laid) {start p : Nat} {d : Subtree} {path : List Nat}
    (hAt : s.at? start path = some (p, d)) : start ≤ p ∧ p + d.size ≤ start + s.size ∧ d.Laid := by
  induction path generalizing s start with
  | nil =>
    obtain ⟨rfl, rfl⟩ := Prod.mk.inj (Option.some.inj hAt)
    exact ⟨Nat.le_refl _, Nat.le_refl _, h⟩
  | cons i path ih =>
    rw [at?_cons h.here, Option.bind_eq_some_iff] at hAt
    obtain ⟨⟨q, c⟩, hEntry, hAt⟩ := hAt
    have hMem := List.mem_of_getElem? hEntry
    obtain ⟨hStart, hStop, hLaid⟩ := ih (h.child _ (mem_of_mem_laid hMem)) hAt
    obtain ⟨hFirst, hLast⟩ := within_of_mem_laid hMem
    have hSize : s.size = totalOf size s.children := h.here.size (List.ne_nil_of_mem (mem_of_mem_laid hMem))
    dsimp only at hStart hStop hLaid hFirst hLast
    exact ⟨by omega, by omega, hLaid⟩

theorem at?_cons_eq_some {s d : Subtree} (h : s.Laid) {start p i : Nat} {path : List Nat} :
    s.at? start (i :: path) = some (p, d) ↔
      ∃ q c r, (laid start s.children)[i]? = some (q, c) ∧ c.at? 0 path = some (r, d) ∧ p = q + r := by
  rw [at?_cons h.here, Option.bind_eq_some_iff]
  constructor
  · rintro ⟨⟨q, c⟩, hEntry, hAt⟩
    have hLaid : c.Laid := h.child _ (mem_of_mem_laid (List.mem_of_getElem? hEntry))
    dsimp only at hAt
    rw [← Nat.add_zero q, at?_add hLaid, Option.map_eq_some_iff] at hAt
    obtain ⟨⟨r, d'⟩, hAt, hEq⟩ := hAt
    obtain ⟨rfl, rfl⟩ := Prod.mk.inj hEq
    exact ⟨q, c, r, hEntry, hAt, rfl⟩
  · rintro ⟨q, c, r, hEntry, hAt, rfl⟩
    have hLaid : c.Laid := h.child _ (mem_of_mem_laid (List.mem_of_getElem? hEntry))
    refine ⟨(q, c), hEntry, ?_⟩
    dsimp only
    rw [← Nat.add_zero q, at?_add hLaid, hAt]
    rfl

/-! ## One row of children -/

/-- How far the traversal of a row is: the next child starts at `q` before the edit and at `q'` after it. -/
def Stage (e : Edit) (absorbed : Bool) (q q' : Nat) : Prop :=
  (absorbed = false ∧ q ≤ e.start ∧ q' = q) ∨ (absorbed = true ∧ e.start ≤ q ∧ q' = e.resized q)

/-- What becomes of a child of a row. -/
inductive Follows (e : Edit) : Nat × Subtree → Nat × Subtree → Prop
  | kept {q q' : Nat} {c : Subtree} : e.Moves q c q' → Follows e (q, c) (q', c)
  | within {q q' : Nat} {c : Subtree} (id : NodeId) : e.Touches q c → q ≤ e.start → q' = q →
      Follows e (q, c) (q', (edited (e.shifted q) id c).1)
  | cut {q q' : Nat} {c : Subtree} (id : NodeId) : e.Touches q c → e.start ≤ q → q' = e.newEnd →
      Follows e (q, c) (q', (edited ⟨0, min (e.oldEnd - q) c.size, 0⟩ id c).1)

@[simp] theorem size_edited (e : Edit) (id : NodeId) (s : Subtree) : (edited e id s).1.size = e.resized s.size := by
  cases s
  simp [edited, rebuilt, size]

theorem Stage.isTouched_iff {e : Edit} {absorbed : Bool} {q q' : Nat} (h : Stage e absorbed q q') {c : Subtree} :
    isTouched e absorbed q c = true ↔ e.Touches q c := by
  rcases h with ⟨rfl, _⟩ | ⟨rfl, hStart, _⟩
  · simp [isTouched, Edit.Touches, and_comm]
  · simp only [isTouched, Edit.Touches, Bool.true_or, Bool.and_true, decide_eq_true_eq]
    omega

theorem Stage.touched {e : Edit} (he : e.Ordered) {absorbed : Bool} {q q' : Nat} (h : Stage e absorbed q q')
    {c : Subtree} (hTouched : e.Touches q c) (id : NodeId) :
    Follows e (q, c) (q', (edited (share e absorbed q c) id c).1) ∧
      Stage e (absorbed || e.start ≤ q + c.size) (q + c.size) (q' + (edited (share e absorbed q c) id c).1.size) ∧
        q' + (edited (share e absorbed q c) id c).1.size = e.resized (q + c.size) := by
  obtain ⟨hOld, hNew⟩ := he
  have hTouched' := hTouched
  obtain ⟨_, hq⟩ := hTouched'
  rw [size_edited]
  rcases h with ⟨rfl, hStart, hSame⟩ | ⟨rfl, hStart, hMoved⟩
  · have hEnd : q' + (share e false q c).resized c.size = e.resized (q + c.size) := by
      simp only [share, Edit.resized, Edit.shifted, Bool.false_eq_true, if_false]
      repeat' split
      all_goals omega
    refine ⟨.within id hTouched hStart hSame, ?_, hEnd⟩
    rw [hEnd, Stage, Bool.false_or]
    by_cases hAbsorbs : e.start ≤ q + c.size
    · exact .inr ⟨decide_eq_true hAbsorbs, hAbsorbs, rfl⟩
    · exact .inl ⟨decide_eq_false hAbsorbs, by omega, by simp only [Edit.resized]; rw [if_pos (by omega)]⟩
  · have hNewEnd : e.resized q = e.newEnd := by
      simp only [Edit.resized]
      repeat' split
      all_goals omega
    have hEnd : q' + (share e true q c).resized c.size = e.resized (q + c.size) := by
      rw [hMoved, hNewEnd]
      simp only [share, Edit.resized, if_true]
      repeat' split
      all_goals omega
    refine ⟨.cut id hTouched hStart (hMoved.trans hNewEnd), ?_, hEnd⟩
    rw [hEnd]
    exact .inr ⟨rfl, by omega, rfl⟩

theorem Stage.untouched {e : Edit} (he : e.Ordered) {absorbed : Bool} {q q' : Nat} (h : Stage e absorbed q q')
    {c : Subtree} (hTouched : ¬e.Touches q c) :
    Follows e (q, c) (q', c) ∧ Stage e absorbed (q + c.size) (q' + c.size) ∧
      q' + c.size = e.resized (q + c.size) := by
  obtain ⟨hOld, hNew⟩ := he
  rw [Edit.Touches, not_and_or] at hTouched
  rcases h with ⟨rfl, hStart, hSame⟩ | ⟨rfl, hStart, hMoved⟩
  · have hBefore : q + c.size + c.lookahead < e.start := by omega
    refine ⟨.kept (.inl ⟨hBefore, hSame⟩), .inl ⟨rfl, by omega, by omega⟩, ?_⟩
    simp only [Edit.resized]
    rw [if_pos (by omega), hSame]
  · have hAfter : e.oldEnd < q := by omega
    have hEnd : q' + c.size = e.resized (q + c.size) := by
      rw [hMoved]
      simp only [Edit.resized]
      repeat' split
      all_goals omega
    have hMoves : q' + e.oldEnd = q + e.newEnd := by
      rw [hMoved]
      simp only [Edit.resized]
      repeat' split
      all_goals omega
    exact ⟨.kept (.inr ⟨hAfter, hMoves⟩), .inr ⟨rfl, by omega, hEnd⟩, hEnd⟩

/-- One pass over a row of children, and where it ends. -/
theorem editedAmong_follows {e : Edit} (he : e.Ordered) {absorbed : Bool} {q q' : Nat} (hStage : Stage e absorbed q q')
    (id : NodeId) (children : List Subtree) :
    List.Forall₂ (Follows e) (laid q children)
        (laid q' (editedAmong e absorbed id (runningSums q (children.map size)) children).1) ∧
      (children ≠ [] → q' + totalOf size (editedAmong e absorbed id (runningSums q (children.map size)) children).1 =
        e.resized (q + totalOf size children)) := by
  induction children generalizing q q' absorbed id with
  | nil => exact ⟨.nil, fun h => absurd rfl h⟩
  | cons c rest ih =>
    -- The row ends after `c`, or where the row of the other children ends.
    have hEnd {c' : Subtree} {rest' : List Subtree} (hHere : q' + c'.size = e.resized (q + c.size))
        (hLength : List.Forall₂ (Follows e) (laid (q + c.size) rest) (laid (q' + c'.size) rest'))
        (hRest : rest ≠ [] → q' + c'.size + totalOf size rest' = e.resized (q + c.size + totalOf size rest)) :
        q' + totalOf size (c' :: rest') = e.resized (q + totalOf size (c :: rest)) := by
      rw [totalOf_cons, totalOf_cons, ← Nat.add_assoc, ← Nat.add_assoc]
      by_cases hNil : rest = []
      · subst hNil
        have hLengths := hLength.length_eq
        rw [length_laid, length_laid] at hLengths
        obtain rfl := List.length_eq_zero_iff.mp hLengths.symm
        exact hHere
      · exact hRest hNil
    rw [List.map_cons, runningSums, editedAmong]
    by_cases hTouched : e.Touches q c
    · rw [if_pos (hStage.isTouched_iff.mpr hTouched)]
      obtain ⟨hFollows, hNext, hHere⟩ := hStage.touched he hTouched id
      obtain ⟨hRest, hTotal⟩ := ih hNext (edited (share e absorbed q c) id c).2
      exact ⟨.cons hFollows hRest, fun _ => hEnd hHere hRest hTotal⟩
    · rw [if_neg (mt hStage.isTouched_iff.mp hTouched)]
      obtain ⟨hFollows, hNext, hHere⟩ := hStage.untouched he hTouched
      obtain ⟨hRest, hTotal⟩ := ih hNext id
      exact ⟨.cons hFollows hRest, fun _ => hEnd hHere hRest hTotal⟩

theorem mem_laid_of_mem {q : Nat} {children : List Subtree} {c : Subtree} (h : c ∈ children) :
    ∃ p, (p, c) ∈ laid q children := by
  induction children generalizing q with
  | nil => cases h
  | cons first rest ih =>
    rcases List.mem_cons.mp h with rfl | h
    · exact ⟨q, List.mem_cons_self⟩
    · obtain ⟨p, hp⟩ := ih h
      exact ⟨p, List.mem_cons_of_mem _ hp⟩

/-! ## One node -/

section Node

variable {e : Edit} {info : NodeInfo} {children : List Subtree}

theorem follows_edited (he : e.Ordered) (h : Tiled info children) (id : NodeId) :
    List.Forall₂ (Follows e) (laid 0 children) (laid 0 (edited e id (node info children)).1.children) := by
  rw [edited, h.offsets]
  exact (editedAmong_follows he (.inl ⟨rfl, Nat.zero_le _, rfl⟩) id children).1

theorem tiled_edited (he : e.Ordered) (h : Tiled info children) (id : NodeId) :
    Tiled (edited e id (node info children)).1.info (edited e id (node info children)).1.children := by
  have hFollows := follows_edited he h id
  have hTotal := (editedAmong_follows he (.inl ⟨rfl, Nat.zero_le _, rfl⟩) id children).2
  rw [edited, h.offsets] at hFollows ⊢
  refine ⟨rfl, fun hNonempty => ?_⟩
  have hOld : children ≠ [] := by
    rintro rfl
    exact hNonempty rfl
  have hTotal := hTotal hOld
  rw [Nat.zero_add, Nat.zero_add, ← h.size hOld] at hTotal
  exact hTotal.symm

/-- A child after the edit is the child before it, or that child edited. -/
theorem mem_edited (he : e.Ordered) (h : Tiled info children) {id : NodeId} {c' : Subtree}
    (hc : c' ∈ (edited e id (node info children)).1.children) :
    ∃ c ∈ children, c' = c ∨ ∃ e' id', e'.Ordered ∧ e'.start ≤ c.size + c.lookahead ∧ c' = (edited e' id' c).1 := by
  obtain ⟨q', hq'⟩ := mem_laid_of_mem (q := 0) hc
  obtain ⟨i, hi⟩ := List.mem_iff_getElem?.mp hq'
  obtain ⟨hBound, hAt⟩ := List.getElem?_eq_some_iff.mp hi
  have hFollows := follows_edited he h id
  have hBound' : i < (laid 0 children).length := by rw [hFollows.length_eq]; exact hBound
  have hChild := hFollows.get hBound' hBound
  rw [List.get_eq_getElem, List.get_eq_getElem, hAt] at hChild
  have hMem := List.getElem_mem hBound'
  generalize (laid 0 children)[i] = entry at hChild hMem
  cases hChild with
  | kept => exact ⟨c', mem_of_mem_laid hMem, .inl rfl⟩
  | @within q _ c id' hTouches hStart =>
    refine ⟨c, mem_of_mem_laid hMem, .inr ⟨_, id', he.shifted q, ?_, rfl⟩⟩
    have := hTouches.1
    simp only [Edit.shifted]
    omega
  | @cut q _ c id' => exact ⟨c, mem_of_mem_laid hMem, .inr ⟨_, id', Edit.ordered_cut _, Nat.zero_le _, rfl⟩⟩

end Node

theorem laid_edited {s : Subtree} (h : s.Laid) {e : Edit} (he : e.Ordered) (id : NodeId) : (edited e id s).1.Laid := by
  induction s using inductionOn generalizing e id with
  | node info children ih =>
    refine all_iff.mpr ⟨tiled_edited he h.here id, fun c' hc' => ?_⟩
    obtain ⟨c, hc, rfl | ⟨e', id', he', _, rfl⟩⟩ := mem_edited he h.here hc'
    · exact h.child _ hc
    · exact ih c hc (h.child c hc) he' id'

/-- A property that a node has after an edit if it had it before. -/
def KeptByEdits (P : NodeInfo → List Subtree → Prop) : Prop :=
  ∀ info children (e : Edit) (id : NodeId), P info children →
    P (edited e id (node info children)).1.info (edited e id (node info children)).1.children

mutual

/-- An edit keeps it at all nodes. -/
theorem all_edited {P : NodeInfo → List Subtree → Prop} (hP : KeptByEdits P) (e : Edit) (id : NodeId) :
    ∀ s : Subtree, s.All P → (edited e id s).1.All P
  | .node info children, h => by
    refine all_iff.mpr ⟨hP info children e id h.here, ?_⟩
    rw [edited]
    exact all_editedAmong hP e false id info.offsets children h.child

theorem all_editedAmong {P : NodeInfo → List Subtree → Prop} (hP : KeptByEdits P) (e : Edit) (absorbed : Bool) (id : NodeId) :
    ∀ (offsets : List Nat) (children : List Subtree), (∀ c ∈ children, c.All P) →
      ∀ c ∈ (editedAmong e absorbed id offsets children).1, c.All P
  | offset :: offsets, c :: rest, h => by
    obtain ⟨hFirst, hRest⟩ := List.forall_mem_cons.mp h
    rw [editedAmong]
    split
    · exact List.forall_mem_cons.mpr ⟨all_edited hP _ id c hFirst, all_editedAmong hP e _ _ offsets rest hRest⟩
    · exact List.forall_mem_cons.mpr ⟨hFirst, all_editedAmong hP e _ _ offsets rest hRest⟩
  | [], _, _ => by
    rw [editedAmong]
    · simp
    · simp
  | _ :: _, [], _ => by
    rw [editedAmong]
    · simp
    · simp

end

/-! ## Whole trees -/

/-- What an unflagged subtree depends on lies within what `s` depends on. -/
def Nested (s : Subtree) : Prop :=
  ∀ path p d, s.at? 0 path = some (p, d) → d.hasChanges = false → p + d.size + d.lookahead ≤ s.size + s.lookahead

/-- A node of a tree that was parsed and perhaps edited: below an unflagged one everything is as it was parsed. -/
structure Kept (info : NodeInfo) (children : List Subtree) : Prop extends Tiled info children where
  sound : info.hasChanges = false → Sound info children ∧ ∀ c ∈ children, c.hasChanges = false
  nested : Nested (node info children)

theorem All.laid {s : Subtree} (h : s.All Kept) : s.Laid := h.mono fun _ _ hKept => hKept.toTiled

/-- An unflagged subtree is as it was parsed. -/
theorem All.sound_of_unchanged {s : Subtree} (h : s.All Kept) (hChanges : s.hasChanges = false) : s.All Sound := by
  induction s using inductionOn with
  | node info children ih =>
    obtain ⟨hSound, hChildren⟩ := h.here.sound hChanges
    exact .node hSound fun c hc => ih c hc (h.child c hc) (hChildren c hc)

/-- What a node of a parsed tree depends on holds what the nodes below depend on. -/
theorem All.nested {s : Subtree} (h : s.All Sound) : s.Nested := by
  have hLaid : s.Laid := h.mono fun _ _ hSound => hSound.toTiled
  intro path
  induction path generalizing s with
  | nil =>
    intro p d hAt _
    obtain ⟨rfl, rfl⟩ := Prod.mk.inj (Option.some.inj hAt)
    omega
  | cons i path ih =>
    intro p d hAt hChanges
    obtain ⟨q, c, r, hEntry, hAtChild, rfl⟩ := (at?_cons_eq_some hLaid).mp hAt
    have hMem := List.mem_of_getElem? hEntry
    have hc := mem_of_mem_laid hMem
    have hBelow := ih (h.child c hc) (hLaid.child c hc) r d hAtChild hChanges
    have hHere := h.here.windows _ hMem
    change q + c.size + c.lookahead ≤ s.size + s.lookahead at hHere
    omega

/-- A parsed tree. -/
theorem All.kept {s : Subtree} (h : s.All Sound) : s.All Kept := by
  induction s using inductionOn with
  | node info children ih =>
    exact .node ⟨h.here.toTiled, fun _ => ⟨h.here, fun c hc => (h.child c hc).unchanged⟩, All.nested h⟩
      fun c hc => ih c hc (h.child c hc)

/-- What becomes of the subtree at the end of a path. -/
inductive Fate (e : Edit) : Nat × Subtree → Nat × Subtree → Prop
  | flagged {p p' : Nat} {d d' : Subtree} : (d.hasChanges = false → e.Touches p d) → d'.hasChanges = true →
      Fate e (p, d) (p', d')
  | kept {p p' : Nat} {d : Subtree} : d.hasChanges = false → e.Moves p d p' → Fate e (p, d) (p', d)

/-- From an edit relative to a child back to the edit of its parent. -/
theorem Fate.lift {e e' : Edit} {q q' r r' : Nat} {d d' : Subtree} (h : Fate e' (r, d) (r', d'))
    (hTouches : e'.Touches r d → e.Touches (q + r) d) (hMoves : e'.Moves r d r' → e.Moves (q + r) d (q' + r')) :
    Fate e (q + r, d) (q' + r', d') := by
  cases h with
  | flagged hTouched hChanges => exact .flagged (fun h => hTouches (hTouched h)) hChanges
  | kept hChanges hMoved => exact .kept hChanges (hMoves hMoved)

/-- A child that is kept, with all below it. -/
theorem fate_of_moves {e : Edit} {q q' : Nat} {c : Subtree} (h : e.Moves q c q') (hNested : c.Nested)
    {path : List Nat} {r : Nat} {d : Subtree} (hAt : c.at? 0 path = some (r, d)) : Fate e (q + r, d) (q' + r, d) := by
  cases hChanges : d.hasChanges with
  | true => exact .flagged (fun hNot => by rw [hChanges] at hNot; cases hNot) hChanges
  | false =>
    have hWindow := hNested path r d hAt hChanges
    refine .kept hChanges ?_
    rcases h with ⟨hBefore, rfl⟩ | ⟨hAfter, hMoved⟩
    · exact .inl ⟨by omega, rfl⟩
    · exact .inr ⟨by omega, by omega⟩

theorem fate_within {e : Edit} (he : e.Ordered) {q : Nat} (hStart : q ≤ e.start) {r r' : Nat} {d d' : Subtree}
    (h : Fate (e.shifted q) (r, d) (r', d')) : Fate e (q + r, d) (q + r', d') := by
  obtain ⟨hOld, hNew⟩ := he
  refine h.lift (fun ⟨hLe, hLe'⟩ => ?_) fun hMoved => ?_
  · simp only [Edit.shifted] at hLe hLe'
    exact ⟨by omega, by omega⟩
  · rcases hMoved with ⟨hBefore, rfl⟩ | ⟨hAfter, hMoved⟩
    · simp only [Edit.shifted] at hBefore
      exact .inl ⟨by omega, rfl⟩
    · simp only [Edit.shifted] at hAfter hMoved
      exact .inr ⟨by omega, by omega⟩

theorem fate_cut {e : Edit} {q size : Nat} (hStart : e.start ≤ q) (hOld : q ≤ e.oldEnd) {r r' : Nat} {d d' : Subtree}
    (hSize : r + d.size ≤ size) (h : Fate ⟨0, min (e.oldEnd - q) size, 0⟩ (r, d) (r', d')) :
    Fate e (q + r, d) (e.newEnd + r', d') := by
  refine h.lift (fun ⟨_, hLe⟩ => ?_) fun hMoved => ?_
  · dsimp only at hLe
    exact ⟨by omega, by omega⟩
  · rcases hMoved with ⟨hBefore, _⟩ | ⟨hAfter, hMoved⟩
    · dsimp only at hBefore
      omega
    · dsimp only at hAfter hMoved
      exact .inr ⟨by omega, by omega⟩

theorem forall₂_getElem? {α β : Type} {R : α → β → Prop} {xs : List α} {ys : List β} (h : List.Forall₂ R xs ys)
    (i : Nat) : Option.Rel R xs[i]? ys[i]? := by
  induction h generalizing i with
  | nil => exact .none
  | cons hR _ ih =>
    cases i with
    | zero => exact .some hR
    | succ i => exact ih i

/-- From the paths below a child to those below its parent. -/
theorem rel_at?_add {R R' : Nat × Subtree → Nat × Subtree → Prop} {c c' : Subtree} (hc : c.Laid) (hc' : c'.Laid)
    (q q' : Nat) {path : List Nat} (hRel : Option.Rel R (c.at? 0 path) (c'.at? 0 path))
    (hLift : ∀ r d r' d', c.at? 0 path = some (r, d) → R (r, d) (r', d') → R' (q + r, d) (q' + r', d')) :
    Option.Rel R' (c.at? q path) (c'.at? q' path) := by
  rw [← Nat.add_zero q, at?_add hc, ← Nat.add_zero q', at?_add hc']
  generalize hAt : c.at? 0 path = entry at hRel hLift
  generalize c'.at? 0 path = entry' at hRel
  cases hRel with
  | none => exact .none
  | some h => exact .some (hLift _ _ _ _ rfl h)

/-- What becomes of the subtrees of a tree that an edit touches, by their paths. -/
theorem edited_at {s : Subtree} (h : s.All Kept) {e : Edit} (he : e.Ordered)
    (hTouched : e.start ≤ s.size + s.lookahead) (id : NodeId) (path : List Nat) :
    Option.Rel (Fate e) (s.at? 0 path) ((edited e id s).1.at? 0 path) := by
  induction path generalizing s e id with
  | nil =>
    refine .some (.flagged (fun _ => ⟨by simpa using hTouched, Nat.zero_le _⟩) ?_)
    cases s
    rfl
  | cons i path ih =>
    obtain ⟨info, children⟩ := s
    have hTiled : Tiled info children := h.here.toTiled
    have hRel := forall₂_getElem? (follows_edited he hTiled id) i
    rw [at?_cons (s := node info children) hTiled, at?_cons (tiled_edited he hTiled id), children_node]
    generalize hEntry : (laid 0 children)[i]? = entry at hRel
    generalize (laid 0 (edited e id (node info children)).1.children)[i]? = entry' at hRel
    cases hRel with
    | none => exact .none
    | @some entry entry' hFollows =>
      have hMem := h.child _ (mem_of_mem_laid (List.mem_of_getElem? hEntry))
      change Option.Rel _ (entry.2.at? entry.1 path) (entry'.2.at? entry'.1 path)
      cases hFollows with
      | @kept q q' c hMoves =>
        refine rel_at?_add (R := fun a b => a = b) hMem.laid hMem.laid q q' ?_ ?_
        · cases c.at? 0 path with
          | none => exact .none
          | some entry => exact .some rfl
        · rintro r d _ _ hAt hEq
          obtain ⟨rfl, rfl⟩ := Prod.mk.inj hEq
          have hNested : c.Nested := by
            rw [← node_eta c]
            exact hMem.here.nested
          exact fate_of_moves hMoves hNested hAt
      | @within q q' c id' hTouches hStart hSame =>
        have he' := he.shifted q
        have hTouches' : (e.shifted q).start ≤ c.size + c.lookahead := by
          have := hTouches.1
          simp only [Edit.shifted]
          omega
        subst hSame
        exact rel_at?_add hMem.laid (laid_edited hMem.laid he' id') q' q' (ih hMem he' hTouches' id')
          fun r d r' d' _ hFate => fate_within he hStart hFate
      | @cut q q' c id' hTouches hStart hNew =>
        have he' := Edit.ordered_cut (min (e.oldEnd - q) c.size)
        subst hNew
        refine rel_at?_add hMem.laid (laid_edited hMem.laid he' id') q _ (ih hMem he' (Nat.zero_le _) id')
          fun r d r' d' hAt hFate => fate_cut hStart hTouches.2 ?_ hFate
        have hWithin := (at?_within hMem.laid hAt).2.1
        dsimp only at hWithin
        omega

/-- Edits keep what the traversal of further edits relies on. -/
theorem kept_edited {s : Subtree} (h : s.All Kept) {e : Edit} (he : e.Ordered)
    (hTouched : e.start ≤ s.size + s.lookahead) (id : NodeId) : (edited e id s).1.All Kept := by
  induction s using inductionOn generalizing e id with
  | node info children ih =>
    have hTiled : Tiled info children := h.here.toTiled
    refine all_iff.mpr ⟨⟨tiled_edited he hTiled id, fun hNot => ?_, ?_⟩, fun c' hc' => ?_⟩
    · cases hNot
    · rw [node_eta]
      intro path p' d' hAt' hChanges
      have hFate := edited_at h he hTouched id path
      rw [hAt'] at hFate
      generalize hAt : (node info children).at? 0 path = entry at hFate
      cases hFate with
      | @some entry _ hFate =>
        cases hFate with
        | flagged _ hFlagged => rw [hChanges] at hFlagged; cases hFlagged
        | @kept p _ _ hUnchanged hMoves =>
          have hWindow := h.here.nested path p d' hAt hUnchanged
          have hWithin := (at?_within h.laid hAt).2.1
          obtain ⟨hOld, hNew⟩ := he
          have hLookahead : (edited e id (node info children)).1.lookahead = (node info children).lookahead := rfl
          rw [size_edited, hLookahead]
          simp only [Edit.resized]
          change p + d'.size + d'.lookahead ≤ (node info children).size + (node info children).lookahead at hWindow
          rcases hMoves with ⟨hBefore, rfl⟩ | ⟨hAfter, hMoved⟩
          · repeat' split
            all_goals omega
          · repeat' split
            all_goals omega
    · obtain ⟨c, hc, rfl | ⟨e', id', he', hTouched', rfl⟩⟩ := mem_edited he hTiled hc'
      · exact h.child _ hc
      · exact ih c hc (h.child c hc) he' hTouched' id'

end Subtree
end Reparse
