import Reparse.Proofs.Parse.Tracked
import Reparse.Proofs.Tree.Lookup
/-!
# Where a cursor over an old tree is

However a cursor over an old tree is moved, the leaves of the tree are those that it has passed, those of its candidate and
those that come later, in this order. The candidate is a node of the tree at its place there, and the scanner's state is
what the last leaf with one recorded before it, whether that leaf was passed alone or with nodes around it.
-/
namespace Reparse

namespace Subtree

variable {info : NodeInfo} {children row : List Subtree} {s : Subtree}

/-! ## What is recorded of the scanner -/

/-- What a node records of the scanner is what its children in a row do, each of which has a place. -/
structure Noted (info : NodeInfo) (children : List Subtree) : Prop where
  placed : info.offsets.length = children.length
  any : children ≠ [] → info.hasScanned = children.any fun c => c.info.hasScanned
  last : children ≠ [] → info.scannerState = lastScannerState children
  idle : info.hasScanned = false → info.scannerState = none

theorem lasting_noted (l : Language) : Lasting l Noted where
  token _ _ _ _ _ _ _ := ⟨rfl, fun h => absurd rfl h, fun h => absurd rfl h, by simp [leaf]⟩
  skipped _ _ _ _ _ := ⟨rfl, fun h => absurd rfl h, fun h => absurd rfl h, fun _ => rfl⟩
  absent _ _ _ _ := ⟨rfl, fun h => absurd rfl h, fun h => absurd rfl h, fun _ => rfl⟩
  parent _ _ _ _ _ _ := ⟨by simp [ofChildren, length_runningSums], fun _ => rfl, fun _ => rfl, lastScannerState_eq_none⟩
  changed _ _ _ _ _ h := ⟨h.placed, h.any, h.last, h.idle⟩
  extra _ _ _ _ _ _ h := ⟨h.placed, h.any, h.last, h.idle⟩

theorem noted_edited : KeptByEdits Noted := by
  intro info children e id h
  have hRetains := retains_editedAmong e false id h.placed
  have hDigest := digestOf_retained hRetains
  have hNil (hNonempty : (editedAmong e false id info.offsets children).1 ≠ []) : children ≠ [] := by
    rintro rfl
    exact hNonempty (List.forall₂_nil_right_iff.mp hRetains)
  rw [edited]
  constructor
  · simp [rebuilt, length_runningSums]
  · intro hNonempty
    exact (h.any (hNil hNonempty)).trans (congrArg Digest.hasScanned hDigest).symm
  · intro hNonempty
    exact (h.last (hNil hNonempty)).trans (congrArg Digest.scannerState hDigest).symm
  · exact h.idle

theorem All.tracked (h : s.All Noted) : s.All Tracked := by
  induction s using inductionOn with
  | node info children ih =>
    rcases children with _ | ⟨c, rest⟩
    · exact tracked_leaf h.here.idle
    · exact tracked_row (fun c hc => ih c hc (h.child c hc)) (h.here.any (by simp)) (h.here.last (by simp))

/-! ## Sizes of leaves -/

theorem leaves_ne_nil (s : Subtree) : s.leaves ≠ [] := by
  induction s using inductionOn with
  | node info children ih =>
    rcases children with _ | ⟨c, rest⟩
    · simp [leaves]
    · rw [leaves_node (by simp), leavesAmong]
      exact List.append_ne_nil_of_left_ne_nil (ih c List.mem_cons_self) _

theorem size_leavesAmong (h : ∀ c ∈ row, totalOf size c.leaves = c.size) :
    totalOf size (leavesAmong row) = totalOf size row := by
  induction row with
  | nil => simp [leavesAmong]
  | cons c rest ih =>
    obtain ⟨hFirst, hRest⟩ := List.forall_mem_cons.mp h
    rw [leavesAmong, totalOf_append, totalOf_cons, hFirst, ih hRest]

theorem size_leaves (h : s.Laid) : totalOf size s.leaves = s.size := by
  induction s using inductionOn with
  | node info children ih =>
    by_cases hChildren : children = []
    · simp [leaves, hChildren]
    · rw [leaves_node hChildren, size_leavesAmong fun c hc => ih c hc (h.child c hc)]
      exact (h.here.size hChildren).symm

end Subtree

theorem Tree.Obtained.tracked {t : Tree} (h : t.Obtained) : t.root.All Subtree.Tracked := by
  apply Subtree.All.tracked
  induction h with
  | @parsed σ p host input old next limit parsed _ _ hParse ih =>
    exact Parser.parse_all (Subtree.lasting_noted _) (fun tree hMem _ => ih tree hMem) hParse
  | edited e id _ ih => exact Subtree.all_edited Subtree.noted_edited _ id _ ih

namespace ReuseCursor

open Subtree

variable {root : Subtree} {frame : ReuseFrame} {frames above : List ReuseFrame} {c : ReuseCursor} {before : List Subtree}

/-! ## Moves -/

inductive Move where
  | advance
  | descend
  deriving DecidableEq, Repr

def move (c : ReuseCursor) : Move → ReuseCursor
  | .advance => c.advance
  | .descend => c.descend

def moved (c : ReuseCursor) (moves : List Move) : ReuseCursor := moves.foldl move c

/-- The leaves of the candidate. -/
def leavesHere (c : ReuseCursor) : List Subtree := (c.current?.map fun candidate => candidate.1.leaves).getD []

/-- The leaves that a move passes: all those of the candidate, or none if it goes down into a node. -/
def passing (c : ReuseCursor) : Move → List Subtree
  | .advance => c.leavesHere
  | .descend => if c.current?.any fun candidate => candidate.1.isLeaf then c.leavesHere else []

/-- The leaves that are passed by moves one after the other. -/
def passed (c : ReuseCursor) : List Move → List Subtree
  | [] => []
  | m :: rest => c.passing m ++ (c.move m).passed rest

/-! ## Frames -/

/-- Frames as they stand over a tree: the one below all others is that of the root, and every other one is of a child of
the candidate of the next one. -/
inductive Framed (root : Subtree) : List ReuseFrame → Prop
  | root : Framed root [⟨[], root, 0, []⟩]
  | child {parent : ReuseFrame} {above : List ReuseFrame} {before later : List Subtree} {s : Subtree} :
    Framed root (parent :: above) → parent.current.children = before.reverse ++ s :: later →
    Framed root (⟨before, s, parent.start + totalOf size before.reverse,
      laid (parent.start + totalOf size before.reverse + s.size) later⟩ :: parent :: above)

/-- The leaves before the candidate. -/
def leavesEarlier : List ReuseFrame → List Subtree
  | [] => []
  | frame :: above => leavesEarlier above ++ leavesAmong frame.before.reverse

/-- The leaves after the candidate. -/
def leavesLater : List ReuseFrame → List Subtree
  | [] => []
  | frame :: above => leavesAmong (frame.after.map Prod.snd) ++ leavesLater above

theorem map_snd_laid (start : Nat) (row : List Subtree) : (laid start row).map Prod.snd = row := by
  induction row generalizing start with
  | nil => rfl
  | cons c rest ih => rw [laid, List.map_cons, ih]

/-- The leaves of a node over a child with what is before and after it. -/
theorem leaves_of_children {s c : Subtree} {later : List Subtree} (h : s.children = before.reverse ++ c :: later) :
    s.leaves = leavesAmong before.reverse ++ c.leaves ++ leavesAmong later := by
  obtain ⟨info, children⟩ := s
  obtain rfl : children = before.reverse ++ c :: later := h
  rw [leaves_node (by simp), leavesAmong_append, leavesAmong, List.append_assoc]

theorem Framed.leaves_eq (h : Framed root (frame :: above)) :
    root.leaves = leavesEarlier (frame :: above) ++ frame.current.leaves ++ leavesLater (frame :: above) := by
  generalize hFrames : frame :: above = frames at h
  induction h generalizing frame above with
  | root =>
    obtain ⟨rfl, rfl⟩ := List.cons.inj hFrames
    simp [leavesEarlier, leavesLater, leavesAmong]
  | child hParent hChildren ih =>
    obtain ⟨rfl, rfl⟩ := List.cons.inj hFrames
    rw [ih rfl, leaves_of_children hChildren]
    simp only [leavesEarlier, leavesLater, map_snd_laid, List.append_assoc]

theorem Framed.all {P : NodeInfo → List Subtree → Prop} (h : Framed root (frame :: above)) (hRoot : root.All P) :
    frame.current.All P := by
  generalize hFrames : frame :: above = frames at h
  induction h generalizing frame above with
  | root =>
    obtain ⟨rfl, rfl⟩ := List.cons.inj hFrames
    exact hRoot
  | child _ hChildren ih =>
    obtain ⟨rfl, rfl⟩ := List.cons.inj hFrames
    exact (ih rfl).child _ (by simp [hChildren])

/-- The candidate stands where it is in the tree, which is after all leaves before it. -/
theorem Framed.place (h : Framed root (frame :: above)) (hRoot : root.Laid) :
    (∃ path, root.at? 0 path = some (frame.start, frame.current)) ∧
      frame.start = totalOf size (leavesEarlier (frame :: above)) := by
  generalize hFrames : frame :: above = frames at h
  induction h generalizing frame above with
  | root =>
    obtain ⟨rfl, rfl⟩ := List.cons.inj hFrames
    exact ⟨⟨[], rfl⟩, by simp [leavesEarlier, leavesAmong]⟩
  | @child parent _ before later s hParent hChildren ih =>
    obtain ⟨rfl, rfl⟩ := List.cons.inj hFrames
    obtain ⟨⟨path, hAt⟩, hStart⟩ := ih rfl
    have hLaid : parent.current.Laid := hParent.all hRoot
    have hBefore : totalOf size (leavesAmong before.reverse) = totalOf size before.reverse :=
      size_leavesAmong fun c hc => size_leaves (hLaid.child c (by simp [hChildren, List.mem_reverse.mp hc]))
    constructor
    · refine ⟨path ++ [before.length], ?_⟩
      rw [at?_append, hAt, Option.bind_some, at?_cons hLaid.here, hChildren, laid_append, List.getElem?_append_right]
      · simp [length_laid, laid, at?]
      · simp [length_laid]
    · rw [leavesEarlier, totalOf_append, ← hStart, hBefore]

/-! ## Moves over a tree -/

/-- Frames with the leaves that were passed on the way there: those before the candidate, or all of them at the end. -/
inductive Stops (root : Subtree) : List ReuseFrame → List Subtree → Prop
  | candidate {frame : ReuseFrame} {above : List ReuseFrame} : Framed root (frame :: above) →
    Stops root (frame :: above) (leavesEarlier (frame :: above))
  | done : Stops root [] root.leaves

/-- Past a candidate its leaves have been passed, and nothing else, however many frames are left. -/
theorem Framed.stops_pastFrames (h : Framed root (frame :: above)) :
    Stops root (pastFrames (frame :: above)) (leavesEarlier (frame :: above) ++ frame.current.leaves) := by
  generalize hFrames : frame :: above = frames at h
  induction h generalizing frame above with
  | root =>
    obtain ⟨rfl, rfl⟩ := List.cons.inj hFrames
    simpa [pastFrames, leavesEarlier, leavesAmong] using Stops.done
  | @child parent above before later s hParent hChildren ih =>
    obtain ⟨rfl, rfl⟩ := List.cons.inj hFrames
    rcases later with _ | ⟨next, later⟩
    · -- The last child: the candidate of the next frame is passed with it.
      rw [laid, pastFrames]
      have hAbove := ih rfl
      rw [leaves_of_children hChildren] at hAbove
      simpa [leavesEarlier, leavesAmong] using hAbove
    · have hNext : parent.current.children = (s :: before).reverse ++ next :: later := by simp [hChildren]
      have hStart : parent.start + totalOf size before.reverse + s.size =
          parent.start + totalOf size (s :: before).reverse := by simp [Nat.add_assoc]
      have hStops := Stops.candidate (hParent.child hNext)
      rw [laid, pastFrames, hStart]
      simpa [leavesEarlier, leavesAmong_append, leavesAmong_singleton] using hStops

/-- Where a cursor is, with what it keeps of the scanner, once the leaves were passed. -/
structure Located (root : Subtree) (c : ReuseCursor) (leaves : List Subtree) : Prop where
  stops : Stops root c.frames leaves
  scanner : c.scannerState = lastScannerState leaves

theorem located_ofTree (t : Tree) : (ofTree t).Located t.root [] where
  stops := by
    have hRoot : Framed t.root (ofTree t).frames := .root
    simpa [ofTree, leavesEarlier, leavesAmong] using Stops.candidate hRoot
  scanner := rfl

variable {leaves : List Subtree}

theorem Located.advance (h : c.Located root leaves) (hTracked : root.All Subtree.Tracked) :
    c.advance.Located root (leaves ++ c.leavesHere) := by
  obtain ⟨frames, state, moves⟩ := c
  obtain ⟨hStops, rfl⟩ := h
  cases hStops with
  | done =>
    refine ⟨?_, by simp [ReuseCursor.advance, leavesHere, current?]⟩
    simpa [ReuseCursor.advance, leavesHere, current?, pastFrames] using Stops.done
  | @candidate frame above hFramed =>
    have hHere := (hFramed.all hTracked).here
    have hAny := hHere.any
    have hLast := hHere.last
    rw [node_eta] at hAny hLast
    refine ⟨hFramed.stops_pastFrames, ?_⟩
    calc
      _ = if frame.current.info.hasScanned then frame.current.info.scannerState
          else lastScannerState (leavesEarlier (frame :: above)) := rfl
      _ = _ := by rw [hAny, hLast]; exact (lastScannerState_append _ _).symm

theorem Located.descend (h : c.Located root leaves) (hLaid : root.Laid) (hTracked : root.All Subtree.Tracked) :
    c.descend.Located root (leaves ++ c.passing .descend) := by
  cases hCurrent : c.current? with
  | none => simpa [ReuseCursor.descend, passing, hCurrent] using h
  | some candidate =>
    obtain ⟨s, start⟩ := candidate
    obtain ⟨frame, above, hFrames, rfl, rfl⟩ := frames_of_current hCurrent
    have hStops := h.stops
    rw [hFrames] at hStops
    cases hStops with
    | candidate hFramed =>
      have hTiled := (hFramed.all hLaid).here
      cases hChildren : frame.current.children with
      | nil =>
        have hAdvance := h.advance hTracked
        simpa [ReuseCursor.descend, passing, hCurrent, hTiled.positioned_eq, hChildren, laid, isLeaf] using hAdvance
      | cons first later =>
        have hRow : frame.current.children = [].reverse ++ first :: later := hChildren
        have hChild := Stops.candidate (hFramed.child hRow)
        have hDescend : c.descend =
            { c with
              frames := ⟨[], first, frame.start, laid (frame.start + first.size) later⟩ :: c.frames
              moves := c.moves - 1 } := by
          simp [ReuseCursor.descend, hCurrent, hTiled.positioned_eq, hChildren, laid]
        have hPassing : c.passing .descend = [] := by simp [passing, hCurrent, hChildren, isLeaf]
        rw [hDescend, hPassing, List.append_nil, hFrames]
        exact ⟨by simpa [leavesEarlier, leavesAmong] using hChild, h.scanner⟩

/-- What every move keeps. -/
theorem Located.move (h : c.Located root leaves) (hLaid : root.Laid) (hTracked : root.All Subtree.Tracked) (m : Move) :
    (c.move m).Located root (leaves ++ c.passing m) := by
  cases m with
  | advance => exact h.advance hTracked
  | descend => exact h.descend hLaid hTracked

theorem Located.moved (h : c.Located root leaves) (hLaid : root.Laid) (hTracked : root.All Subtree.Tracked)
    (moves : List Move) : (c.moved moves).Located root (leaves ++ c.passed moves) := by
  induction moves generalizing c leaves with
  | nil => simpa [ReuseCursor.moved, passed] using h
  | cons m rest ih =>
    rw [passed, ← List.append_assoc]
    exact ih (h.move hLaid hTracked m)

end ReuseCursor

/-- However a cursor over a parsed and edited tree was moved: the leaves of the tree are those that it has passed, those of
its candidate and those that come later; the candidate is a node of the tree at its place, after all that was passed; there
is none exactly if all leaves are passed; and the scanner's state is what the last leaf with one before the candidate
recorded. -/
theorem Tree.Obtained.cursor_located {t : Tree} (h : t.Obtained) (moves : List ReuseCursor.Move) :
    let start := ReuseCursor.ofTree t
    let c := start.moved moves
    t.root.leaves = start.passed moves ++ c.leavesHere ++ ReuseCursor.leavesLater c.frames ∧
    (∀ s p, c.current? = some (s, p) →
      (∃ path, t.root.at? 0 path = some (p, s)) ∧ p = Subtree.totalOf Subtree.size (start.passed moves)) ∧
    (c.current? = none ↔ start.passed moves = t.root.leaves) ∧
    c.scannerState = Subtree.lastScannerState (start.passed moves) := by
  intro start c
  have hLocated : c.Located t.root (start.passed moves) := (ReuseCursor.located_ofTree t).moved h.laid h.tracked moves
  generalize start.passed moves = passed at hLocated ⊢
  obtain ⟨hStops, hScanner⟩ := hLocated
  generalize hFrames : c.frames = frames at hStops
  cases hStops with
  | done =>
    have hCurrent : c.current? = none := by simp [ReuseCursor.current?, hFrames]
    simp [ReuseCursor.leavesHere, hCurrent, ReuseCursor.leavesLater, hScanner]
  | @candidate frame above hFramed =>
    have hCurrent : c.current? = some (frame.current, frame.start) := by simp [ReuseCursor.current?, hFrames]
    have hLeaves := hFramed.leaves_eq
    refine ⟨by simpa [ReuseCursor.leavesHere, hCurrent] using hLeaves, ?_, ?_, hScanner⟩
    · intro s p hHere
      obtain ⟨rfl, rfl⟩ := Prod.mk.inj (Option.some.inj (hCurrent.symm.trans hHere))
      exact hFramed.place h.laid
    · simp only [hCurrent, reduceCtorEq, false_iff]
      intro hAll
      rw [← hAll, List.append_assoc, List.self_eq_append_right, List.append_eq_nil_iff] at hLeaves
      exact frame.current.leaves_ne_nil hLeaves.1

/-- Items of a bracket, which the scanner counts, and an `a`. -/
def Table.tallied : Table where
  name := "tallied"
  symbols := #[.endOfInput, ⟨"open", true, true, false, false⟩, ⟨"a", true, false, false, false⟩,
    ⟨"s", true, true, false, false⟩, ⟨"item", true, true, false, false⟩]
  tokenCount := 3
  fields := #[]
  productions := #[⟨⟨3⟩, 2, []⟩, ⟨⟨3⟩, 1, []⟩, ⟨⟨4⟩, 2, []⟩]
  stateCount := 6
  actions := #[none, some (.shift 1), none, none, none, some (.shift 4), some .accept, some (.shift 1), none,
    some (.reduce 1), some (.reduce 1), none, some (.reduce 2), some (.reduce 2), none, some (.reduce 0),
    some (.reduce 0), none]
  gotos := #[some 2, some 3, none, none, none, some 5, none, none, none, none, none, none]
  lexNodes := #[.accept ⟨2⟩, .chars ⟨#[('a', 'a')], false⟩ 0]
  tokenLex := #[.none, .none, ⟨some 1, true, false⟩]
  extras := []
  externals := [⟨1⟩]
  start := ⟨3⟩
  word := none

/-- Recognizes a bracket, and has the state tell how many there were. -/
def Scanner.tally : Scanner where
  start state _ := [(state.headD 0).toNat]
  onChar memory c :=
    match memory with
    | [count] => if c = '<' then .advance false [count + 1, 0] else .stop false none
    | _ => .stop true (some ⟨0, [(memory.headD 0).toUInt8]⟩)
  onEnd _ := (false, none)

def Language.tallied : Language where
  handle := 0
  table := .tallied
  version := Blob.formatVersion
  modes := #[⟨[], [true]⟩, ⟨[⟨2⟩], [false]⟩]
  stateModes := #[0, 1, 0, 0, 0, 0]
  errorMode := ⟨[⟨2⟩], [true]⟩
  keywords := []
  scanner := some Scanner.tally.external

/-- In `<a<a<a`, with the first `a` typed anew, the first two items are passed whole and the third one is entered up to its
`a`: the scanner has counted three brackets on the way. -/
theorem Tree.tallied_cursor : ∃ (t : Tree) (c : ReuseCursor) (s : Subtree) (path : List Nat), t.Obtained ∧
    c = (ReuseCursor.ofTree t).moved [.descend, .advance, .descend, .advance] ∧ c.current? = some (s, 5) ∧
    t.root.at? 0 path = some (5, s) ∧ c.scannerState = some [3] ∧
    Subtree.lastScannerState ((ReuseCursor.ofTree t).passed [.descend, .advance, .descend, .advance]) = some [3] := by
  have hParses : (((Parser.ofLanguage .tallied).parse 60 (Parser.plainHost "<a<a<a".toUTF8) () none 0).map fun parsed =>
      let c := (ReuseCursor.ofTree (parsed.tree.edited ⟨1, 2, 2⟩ 40).1).moved [.descend, .advance, .descend, .advance]
      (c.current?.map (·.2), c.scannerState)) = some (some 5, some [3]) := by decide +kernel
  obtain ⟨parsed, hParsed, hFacts⟩ := Option.map_eq_some_iff.mp hParses
  obtain ⟨hCurrent, hState⟩ := Prod.mk.inj hFacts
  obtain ⟨⟨s, _⟩, hCurrent, rfl⟩ := Option.map_eq_some_iff.mp hCurrent
  have hParsed := Tree.Obtained.parsed (fun _ h => absurd h (Option.not_mem_none _))
    (fun _ h => absurd h (Option.not_mem_none _)) hParsed
  have hObtained := hParsed.edited ⟨1, 2, 2⟩ 40
  obtain ⟨-, hPlace, -, hScanner⟩ := hObtained.cursor_located [.descend, .advance, .descend, .advance]
  obtain ⟨⟨path, hAt⟩, -⟩ := hPlace s 5 hCurrent
  exact ⟨_, _, s, path, hObtained, rfl, hCurrent, hAt, hState, hScanner.symm.trans hState⟩

end Reparse
