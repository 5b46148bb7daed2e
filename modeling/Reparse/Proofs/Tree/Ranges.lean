import Reparse.Proofs.Tree.Edited
import Reparse.Proofs.Tree.Views
/-!
# Walks restricted to ranges

A walk over a node with ranges skips a node that meets none of them together with all below it. What it visits is therefore
what the walk without ranges visits, less the nodes that meet none of the ranges or are below one that meets none. A node
that has bytes and meets a range is not below such a node; an empty one can be, at the start or the end of it.
-/
namespace Reparse

open Subtree

namespace TreeCursor

variable {t : Tree} {top parent : CursorFrame} {above : List CursorFrame} {c d : TreeCursor}

/-! ## Ancestors -/

/-- The nodes of the frames that a cursor going up stops at. -/
def ancestorsAmong (t : Tree) : List CursorFrame → List Node
  | [] => []
  | parent :: above =>
    if above.isEmpty || t.isVisible parent.subtree then parent.node t :: ancestorsAmong t above else ancestorsAmong t above

/-- The visible nodes above the current one, the nearest first, and the first node of the cursor. -/
def ancestors (c : TreeCursor) : List Node := ancestorsAmong c.tree c.above

theorem ancestorsAmong_suffix {outer above : List CursorFrame} (h : outer <:+ above) :
    ancestorsAmong t outer <:+ ancestorsAmong t above := by
  induction above with
  | nil => rw [List.suffix_nil.mp h]
  | cons parent above ih =>
    rcases List.suffix_cons_iff.mp h with rfl | h
    · exact List.suffix_rfl
    · rw [ancestorsAmong]
      split
      · exact (ih h).trans (List.suffix_cons _ _)
      · exact ih h

/-- The way to the first visible node of a row goes through hidden ones only. -/
theorem firstShown_below {index : Nat} {offsets : List Nat} {children : List Subtree}
    {found : CursorFrame × List CursorFrame} (h : firstShown t parent above index offsets children = some found) :
    t.isVisible found.1.subtree = true ∧ parent :: above <:+ found.2 ∧
      ancestorsAmong t found.2 = ancestorsAmong t (parent :: above) := by
  fun_induction firstShown t parent above index offsets children with
  | case1 => cases h
  | case2 => cases h
  | case3 parent above index offset offsets info below rest c field frame hVisible =>
    cases h
    exact ⟨hVisible, List.suffix_rfl, rfl⟩
  | case4 parent above index offset offsets info below rest c field frame hHidden hSome ih =>
    obtain ⟨hVisible, hFrames, hAncestors⟩ := ih h
    refine ⟨hVisible, (List.suffix_cons _ _).trans hFrames, ?_⟩
    rw [hAncestors, ancestorsAmong]
    simp [frame, hHidden]
  | case5 parent above index offset offsets info below rest c hHidden hNone ih => exact ih h

/-- The second cursor is below the first one. -/
structure Below (c d : TreeCursor) : Prop where
  tree : d.tree = c.tree
  frames : c.top :: c.above <:+ d.above

/-- A cursor that stands at the first node or at a visible one, as all do that moves lead to. -/
def Stands (c : TreeCursor) : Prop := (c.above.isEmpty || c.tree.isVisible c.top.subtree) = true

theorem Stands.ancestorsAmong_cons (h : c.Stands) :
    ancestorsAmong c.tree (c.top :: c.above) = c.node :: c.ancestors := if_pos h

theorem below_firstChild (h : c.firstChild? = some d) :
    Below c d ∧ d.Stands ∧ (c.Stands → d.ancestors = c.node :: c.ancestors) := by
  obtain ⟨found, hFound, rfl⟩ := Option.map_eq_some_iff.mp h
  obtain ⟨hVisible, hFrames, hAncestors⟩ := firstShown_below hFound
  refine ⟨⟨rfl, hFrames⟩, ?_, fun hStands => ?_⟩
  · simp [Stands, hVisible]
  · rw [ancestors, hAncestors, hStands.ancestorsAmong_cons]

end TreeCursor

namespace Preorder

open TreeCursor

variable {c d : TreeCursor} {ranges : List TextRange}

theorem pastShown_below {t : Tree} {top : CursorFrame} {above : List CursorFrame} {found : CursorFrame × List CursorFrame}
    (h : pastShown t top above = some found) :
    t.isVisible found.1.subtree = true ∧ ancestorsAmong t found.2 <:+ ancestorsAmong t above := by
  induction above generalizing top with
  | nil => cases h
  | cons parent above ih =>
    rw [pastShown] at h
    split at h
    next found' hLater =>
      cases h
      obtain ⟨hVisible, -, hAncestors⟩ := firstShown_below hLater
      exact ⟨hVisible, hAncestors ▸ List.suffix_rfl⟩
    next =>
      obtain ⟨hVisible, hAncestors⟩ := ih h
      exact ⟨hVisible, hAncestors.trans (ancestorsAmong_suffix (List.suffix_cons _ _))⟩

theorem stands_past (h : past? c = some d) : d.Stands ∧ d.ancestors <:+ c.ancestors := by
  obtain ⟨found, hFound, rfl⟩ := Option.map_eq_some_iff.mp h
  obtain ⟨hVisible, hAncestors⟩ := pastShown_below hFound
  exact ⟨by simp [Stands, hVisible], hAncestors⟩

/-- From below a cursor a walk goes past everything there to another place below it, or past the cursor. -/
theorem past_below (h : Below c d) : past? d = past? c ∨ ∃ e, past? d = some e ∧ Below c e := by
  obtain ⟨t, top, above⟩ := d
  obtain ⟨⟨⟩, hFrames⟩ := h
  dsimp only at hFrames
  induction above generalizing top with
  | nil => simp at hFrames
  | cons parent above ih =>
    rw [past?]
    dsimp only
    rw [pastShown]
    cases hLater : laterShown c.tree top parent above with
    | some found =>
      obtain ⟨-, hDown, -⟩ := firstShown_below hLater
      exact .inr ⟨_, rfl, rfl, hFrames.trans hDown⟩
    | none =>
      rcases List.suffix_cons_iff.mp hFrames with hHere | hFrames
      · obtain ⟨rfl, rfl⟩ := List.cons.inj hHere
        exact .inl rfl
      · exact ih parent hFrames

/-! ## The walk without ranges -/

/-- Where a walk without ranges goes on. -/
def onward? (c : TreeCursor) : Option TreeCursor := c.firstChild? <|> past? c

theorem onward_below (h : d = c ∨ Below c d) : onward? d = past? c ∨ ∃ e, onward? d = some e ∧ Below c e := by
  rw [onward?]
  cases hFirst : d.firstChild? with
  | some e =>
    obtain ⟨hBelow, -⟩ := below_firstChild hFirst
    refine .inr ⟨e, rfl, ?_⟩
    rcases h with rfl | h
    · exact hBelow
    · exact ⟨hBelow.tree.trans h.tree, h.frames.trans ((List.suffix_cons _ _).trans hBelow.frames)⟩
  | none =>
    rcases h with rfl | h
    · exact .inl rfl
    · exact past_below h

/-- The stops of a walk without ranges, until it comes to its end. -/
inductive Walks : Option TreeCursor → List TreeCursor → Prop
  | done : Walks none []
  | step {c : TreeCursor} {rest : List TreeCursor} : Walks (onward? c) rest → Walks (some c) (c :: rest)

/-- From a cursor or below it a walk goes on below it, and then past it. -/
theorem Walks.inside {stops : List TreeCursor} (h : Walks (some d) stops) (hAt : d = c ∨ Below c d) :
    ∃ inside rest, stops = d :: inside ++ rest ∧ (∀ e ∈ inside, Below c e) ∧ Walks (past? c) rest := by
  generalize hStart : some d = start at h
  induction h generalizing d with
  | done => cases hStart
  | @step _ rest hWalks ih =>
    cases hStart
    rcases onward_below hAt with hNext | ⟨e, hNext, hBelow⟩
    · exact ⟨[], rest, rfl, by simp, hNext ▸ hWalks⟩
    · obtain ⟨inside, rest', rfl, hInside, hPast⟩ := ih (.inr hBelow) hNext.symm
      exact ⟨e :: inside, rest', rfl, List.forall_mem_cons.mpr ⟨hBelow, hInside⟩, hPast⟩

/-! ## The walk with ranges -/

/-- Whether a node and all above it meet the ranges. -/
def kept (ranges : List TextRange) (c : TreeCursor) : Bool := (c.node :: c.ancestors).all (wanted ranges)

/-- Where a walk with ranges may be: all nodes above meet one of them. -/
structure Reached (ranges : List TextRange) (c : TreeCursor) : Prop where
  stands : c.Stands
  above : ∀ a ∈ c.ancestors, wanted ranges a = true

theorem Reached.past (h : Reached ranges c) (hPast : past? c = some d) : Reached ranges d := by
  obtain ⟨hStands, hAncestors⟩ := stands_past hPast
  exact ⟨hStands, fun a ha => h.above a (hAncestors.subset ha)⟩

theorem Reached.onward (h : Reached ranges c) (hWanted : wanted ranges c.node = true) (hNext : onward? c = some d) :
    Reached ranges d := by
  rw [onward?] at hNext
  cases hFirst : c.firstChild? with
  | none =>
    rw [hFirst] at hNext
    exact h.past hNext
  | some e =>
    rw [hFirst] at hNext
    cases hNext
    obtain ⟨-, hStands, hAncestors⟩ := below_firstChild hFirst
    refine ⟨hStands, ?_⟩
    rw [hAncestors h.stands]
    exact List.forall_mem_cons.mpr ⟨hWanted, h.above⟩

/-- How many nodes a walk looks at for its next one. -/
def room (c : TreeCursor) : Nat :=
  ((c.top :: c.above).getLast?.map fun frame => frame.subtree.info.visibleDescendants + 1).getD 0

section Whole

variable {n : Node} (h : n.subtree.All (Counted n.tree.language))
include h

end Whole

end Preorder

/-! ## What lies within what -/

namespace TextRange

end TextRange

namespace TreeCursor

variable {t : Tree} {top parent : CursorFrame} {above : List CursorFrame}

/-- Children in a row from `offset` on, up to the end of their parent. -/
structure Fits (parent : CursorFrame) (offset : Nat) (offsets : List Nat) (children : List Subtree) : Prop where
  offsets : offsets = runningSums offset (children.map size)
  within : offset + totalOf size children ≤ parent.subtree.size
  laid : ∀ c ∈ children, c.Laid

/-- Each frame stands where its parent has it, with its later siblings after it. -/
inductive Nested : CursorFrame → List CursorFrame → Prop
  | first {f : CursorFrame} : f.subtree.Laid → Nested f []
  | inner {f parent : CursorFrame} {above : List CursorFrame} {offset : Nat} : f.subtree.Laid →
    f.start = parent.start + offset → Fits parent (offset + f.subtree.size) f.laterOffsets f.later → Nested parent above →
    Nested f (parent :: above)

theorem Nested.laid (h : Nested top above) : top.subtree.Laid := by
  cases h with
  | first hLaid => exact hLaid
  | inner hLaid => exact hLaid

theorem Nested.within (h : Nested top above) :
    ∀ f ∈ above, f.start ≤ top.start ∧ top.start + top.subtree.size ≤ f.start + f.subtree.size := by
  induction h with
  | first => simp
  | @inner f parent above offset _ hStart hFits _ ih =>
    have hWithin := hFits.within
    have hParent : parent.start ≤ f.start ∧ f.start + f.subtree.size ≤ parent.start + parent.subtree.size := by omega
    refine List.forall_mem_cons.mpr ⟨hParent, fun g hg => ?_⟩
    have := ih g hg
    omega

theorem fits_children {f : CursorFrame} (h : f.subtree.Laid) : Fits f 0 f.subtree.info.offsets f.subtree.children where
  offsets := h.here.offsets
  within := by
    by_cases hEmpty : f.subtree.children = []
    · simp [hEmpty]
    · rw [Nat.zero_add]
      exact (h.here.size hEmpty).ge
  laid := h.child

theorem Fits.cons {offset first : Nat} {offsets : List Nat} {c : Subtree} {rest : List Subtree}
    (h : Fits parent offset (first :: offsets) (c :: rest)) :
    first = offset ∧ c.Laid ∧ Fits parent (offset + c.size) offsets rest := by
  obtain ⟨hFirst, hOffsets⟩ := List.cons.inj h.offsets
  obtain ⟨hLaid, hRest⟩ := List.forall_mem_cons.mp h.laid
  have hWithin := h.within
  rw [totalOf_cons] at hWithin
  exact ⟨hFirst, hLaid, hOffsets, by omega, hRest⟩

theorem firstShown_nested {index : Nat} {offsets : List Nat} {children : List Subtree}
    {found : CursorFrame × List CursorFrame} (hParent : Nested parent above)
    (hFits : ∃ offset, Fits parent offset offsets children)
    (h : firstShown t parent above index offsets children = some found) : Nested found.1 found.2 := by
  fun_induction firstShown t parent above index offsets children with
  | case1 => cases h
  | case2 => cases h
  | case3 parent above index first offsets info below rest c field frame hVisible =>
    obtain ⟨_, hFits⟩ := hFits
    obtain ⟨rfl, hLaid, hRest⟩ := hFits.cons
    cases h
    exact .inner hLaid rfl hRest hParent
  | case4 parent above index first offsets info below rest c field frame hHidden hSome ih =>
    obtain ⟨_, hFits⟩ := hFits
    obtain ⟨rfl, hLaid, hRest⟩ := hFits.cons
    exact ih (.inner hLaid rfl hRest hParent) ⟨0, fits_children hLaid⟩ h
  | case5 parent above index first offsets info below rest c hHidden hNone ih =>
    obtain ⟨_, hFits⟩ := hFits
    obtain ⟨-, -, hRest⟩ := hFits.cons
    exact ih hParent ⟨_, hRest⟩ h

theorem laterShown_nested {found : CursorFrame × List CursorFrame} (h : Nested top (parent :: above))
    (hFound : laterShown t top parent above = some found) : Nested found.1 found.2 := by
  cases h with
  | inner _ _ hFits hParent => exact firstShown_nested hParent ⟨_, hFits⟩ hFound

end TreeCursor

namespace Preorder

open TreeCursor

variable {c d : TreeCursor}

theorem pastShown_nested {t : Tree} {top : CursorFrame} {above : List CursorFrame} {found : CursorFrame × List CursorFrame}
    (h : Nested top above) (hFound : pastShown t top above = some found) : Nested found.1 found.2 := by
  induction above generalizing top with
  | nil => cases hFound
  | cons parent above ih =>
    rw [pastShown] at hFound
    split at hFound
    next found' hLater =>
      cases hFound
      exact laterShown_nested h hLater
    next =>
      cases h with
      | inner _ _ _ hParent => exact ih hParent hFound

theorem onward_nested (h : Nested c.top c.above) (hNext : onward? c = some d) : Nested d.top d.above := by
  rw [onward?] at hNext
  cases hFirst : c.firstChild? with
  | some e =>
    obtain ⟨found, hFound, rfl⟩ := Option.map_eq_some_iff.mp hFirst
    rw [hFirst] at hNext
    cases hNext
    exact firstShown_nested h ⟨0, fits_children h.laid⟩ hFound
  | none =>
    rw [hFirst] at hNext
    obtain ⟨found, hFound, rfl⟩ := Option.map_eq_some_iff.mp hNext
    exact pastShown_nested h hFound

theorem Walks.nested {next : Option TreeCursor} {stops : List TreeCursor} (h : Walks next stops)
    (hNext : ∀ c ∈ next, Nested c.top c.above) : ∀ c ∈ stops, Nested c.top c.above := by
  induction h with
  | done => simp
  | step _ ih =>
    have hHere := hNext _ rfl
    exact List.forall_mem_cons.mpr ⟨hHere, ih fun d hd => onward_nested hHere hd⟩

end Preorder

namespace Subtree

theorem lasting_tiled (l : Language) : Lasting l Tiled where
  token _ _ _ _ _ _ _ := ⟨rfl, fun h => absurd rfl h⟩
  skipped _ _ _ _ _ := ⟨rfl, fun h => absurd rfl h⟩
  absent _ _ _ _ := ⟨rfl, fun h => absurd rfl h⟩
  parent _ _ _ _ _ _ := ⟨rfl, fun _ => rfl⟩
  changed _ _ _ _ _ h := ⟨h.offsets, h.size⟩
  extra _ _ _ _ _ _ h := ⟨h.offsets, h.size⟩

end Subtree

/-- The children of every node stand one after the other, in a parsed tree and however it is edited. -/
theorem Tree.Obtained.laid {t : Tree} (h : t.Obtained) : t.root.Laid := by
  induction h with
  | @parsed σ p host input old next limit parsed _ _ hParse ih =>
    exact Parser.parse_all (Subtree.lasting_tiled _) (fun tree hMem _ => ih tree hMem) hParse
  | @edited tree e id _ ih => exact laid_edited ih (e.ordered_clamped _) id

end Reparse
