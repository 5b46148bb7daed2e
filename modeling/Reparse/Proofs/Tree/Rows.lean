import Reparse.Proofs.Tree.Recorded
import Reparse.Proofs.Tree.Sights
/-!
# Rows drawn anew

A link is hidden and gives no fields, so it looks like its children in a row. Links can therefore be taken away from a row
or put around it, and the subtrees in it are still found at their places.
-/
namespace Reparse
namespace Subtree

variable {l : Language} {info : NodeInfo} {children old mid new : List Subtree} {s s' : Subtree}

mutual

/-- The subtrees without children, in order. -/
def leaves : Subtree → List Subtree
  | node info children => if children.isEmpty then [node info children] else leavesAmong children

def leavesAmong : List Subtree → List Subtree
  | [] => []
  | c :: rest => leaves c ++ leavesAmong rest

end

theorem leavesAmong_append (a b : List Subtree) : leavesAmong (a ++ b) = leavesAmong a ++ leavesAmong b := by
  induction a with
  | nil => simp [leavesAmong]
  | cons c rest ih => rw [List.cons_append, leavesAmong, leavesAmong, ih, List.append_assoc]

theorem leavesAmong_singleton (s : Subtree) : leavesAmong [s] = s.leaves := by
  rw [leavesAmong, leavesAmong, List.append_nil]

theorem leaves_node (h : children ≠ []) : (node info children).leaves = leavesAmong children := by
  rw [leaves, if_neg (by simpa using h)]

/-! ## Rows that look alike -/

/-- Under a parent that gives no fields the two cannot be told apart. -/
structure LooksAlike (l : Language) (old new : List Subtree) : Prop where
  leaves : leavesAmong new = leavesAmong old
  digest : digestOf new = digestOf old
  shown : totalOf (shownChildren l) new = totalOf (shownChildren l) old
  sights : ∀ depth start field, spread l depth start field new = spread l depth start field old

namespace LooksAlike

theorem refl (l : Language) (old : List Subtree) : LooksAlike l old old := ⟨rfl, rfl, rfl, fun _ _ _ => rfl⟩

theorem symm (h : LooksAlike l old new) : LooksAlike l new old :=
  ⟨h.leaves.symm, h.digest.symm, h.shown.symm, fun depth start field => (h.sights depth start field).symm⟩

theorem trans (h : LooksAlike l old mid) (h' : LooksAlike l mid new) : LooksAlike l old new :=
  ⟨h'.leaves.trans h.leaves, h'.digest.trans h.digest, h'.shown.trans h.shown,
    fun depth start field => (h'.sights depth start field).trans (h.sights depth start field)⟩

theorem size (h : LooksAlike l old new) : totalOf size new = totalOf size old := congrArg Digest.size h.digest

theorem append {old' new' : List Subtree} (h : LooksAlike l old new) (h' : LooksAlike l old' new') :
    LooksAlike l (old ++ old') (new ++ new') where
  leaves := by rw [leavesAmong_append, leavesAmong_append, h.leaves, h'.leaves]
  digest := by rw [digestOf_append, digestOf_append, h.digest, h'.digest]
  shown := by rw [totalOf_append, totalOf_append, h.shown, h'.shown]
  sights depth start field := by rw [spread_append, spread_append, h.sights, h'.sights, h.size]

end LooksAlike

theorem sight_congr (s s' : Subtree) (hSymbol : s'.symbol = s.symbol) (hDigest : digestOf [s'] = digestOf [s])
    (hExtra : s'.isExtra = s.isExtra) (hMissing : s'.isMissing = s.isMissing) (depth start : Nat) (field : Option FieldId) :
    s'.sight l depth start field = s.sight l depth start field := by
  have hSize : s'.size = s.size := congrArg Digest.size hDigest
  have hError : s'.hasError = s.hasError := by
    have hAny := congrArg Digest.hasError hDigest
    simpa [digestOf] using hAny
  rw [sight, sight, hSymbol, hSize, hExtra, hMissing, hError]

/-- Two nodes by one production look alike over rows that do so one by one. -/
theorem looksAlike_node {info' : NodeInfo} (h : Recorded l info children) (h' : Recorded l info' new)
    (hChildren : children ≠ []) (hNew : new ≠ []) (hSymbol : info'.symbol = info.symbol)
    (hProduction : info'.production = info.production) (hExtra : info'.extra = info.extra)
    (hRow : LooksAlike l children new)
    (hEach : List.Forall₂ (fun new old => new.isExtra = old.isExtra ∧ LooksAlike l [old] [new]) new children) :
    LooksAlike l [node info children] [node info' new] := by
  have hDigest : digestOf [node info' new] = digestOf [node info children] := by
    rw [digestOf_singleton (s := node info' new) h'.scanned, digestOf_singleton (s := node info children) h.scanned]
    exact (h'.digest hNew).trans (by rw [hRow.digest, hSymbol, ← h.digest hChildren]; rfl)
  have hMissing : info'.missing = info.missing := (h'.present hNew).trans (h.present hChildren).symm
  have hShown : info'.visibleChildren = info.visibleChildren := by rw [h'.shown hNew, h.shown hChildren, hRow.shown]
  have hAmong (depth start : Nat) (field : Option FieldId) :
      sightsAmong l info' depth start field 0 info'.offsets new = sightsAmong l info depth start field 0 info.offsets children := by
    rw [h'.offsets, h.offsets]
    apply sightsAmong_congr hProduction
    refine hEach.imp fun new old hPair => ⟨hPair.1, ?_, hPair.2.sights⟩
    simpa using hPair.2.size
  constructor
  · rw [leavesAmong_singleton, leavesAmong_singleton, leaves_node hChildren, leaves_node hNew, hRow.leaves]
  · exact hDigest
  · rw [totalOf_cons, totalOf_cons, shownChildren, shownChildren, symbol, symbol, info_node, info_node, hSymbol, hShown]
  · intro depth start field
    have hSights (field : Option FieldId) :
        sights l depth start field (node info' new) = sights l depth start field (node info children) := by
      rw [sights, sights, hAmong, sight_congr (node info children) (node info' new) hSymbol hDigest hExtra hMissing]
    rw [spread_singleton, spread_singleton, isExtra, isExtra, info_node, info_node, hExtra, shows, shows, symbol, symbol,
      info_node, info_node, children_node, children_node, hSymbol, hShown, hAmong, hSights]

/-- A node that nothing shows of: hidden, without fields, and no extra. -/
structure Linking (l : Language) (info : NodeInfo) (children : List Subtree) : Prop extends Recorded l info children where
  hidden : l.isVisible info.symbol = false
  fields : ∀ i, l.fieldOfChild info i = none
  structural : info.extra = false
  nonempty : children ≠ []

theorem Linking.withLookahead (h : Linking l info children) (bytes : Nat) :
    Linking l { info with lookahead := max info.lookahead bytes } children :=
  ⟨h.toRecorded.congr rfl h.extra, h.hidden, h.fields, h.structural, h.nonempty⟩

theorem Linking.looksAlike (h : Linking l info children) : LooksAlike l [node info children] children where
  leaves := by rw [leavesAmong_singleton, leaves_node h.nonempty]
  digest := by
    have hError : info.symbol.isError = false := by
      have hHidden := h.hidden
      rw [Language.isVisible, Bool.or_eq_false_iff] at hHidden
      exact hHidden.1
    have hDigest := h.digest h.nonempty
    rw [hError, Bool.false_or] at hDigest
    rw [digestOf_singleton (s := node info children) h.scanned]
    exact hDigest.symm
  shown := by
    rw [totalOf_cons, totalOf_nil, Nat.add_zero, shownChildren, ← h.shown h.nonempty]
    exact (if_neg (by rw [symbol, info_node, h.hidden]; exact Bool.false_ne_true)).symm
  sights depth start field := by
    have hField : (if (node info children).isExtra then none else field) = field :=
      if_neg (by rw [isExtra, info_node, h.structural]; exact Bool.false_ne_true)
    rw [spread_singleton, hField, shows_of_hidden h.hidden h.shown, h.offsets, sightsAmong_eq_spread h.fields,
      Nat.add_zero]

/-! ## Places -/

/-- The subtree is found at its place at or below `s`, which starts at `start`. -/
def Holds (start : Nat) (s : Subtree) (place : Nat × Subtree) : Prop := ∃ path, s.at? start path = some place

/-- The place of a subtree that is not fresh, all above it being fresh. -/
inductive Reused (fresh : NodeId → Bool) : Nat → Subtree → Nat × Subtree → Prop
  | here {start : Nat} {s : Subtree} : fresh s.id = false → Reused fresh start s (start, s)
  | deeper {start : Nat} {s : Subtree} {entry place : Nat × Subtree} :
    fresh s.id = true → entry ∈ s.positioned start → Reused fresh entry.1 entry.2 place → Reused fresh start s place

/-- Subtrees in a row have the place, as `Has` says of each. -/
def Among (Has : Nat → Subtree → Nat × Subtree → Prop) (start : Nat) (children : List Subtree)
    (place : Nat × Subtree) : Prop :=
  ∃ entry ∈ laid start children, Has entry.1 entry.2 place

variable {Has : Nat → Subtree → Nat × Subtree → Prop} {start : Nat} {place : Nat × Subtree} {fresh : NodeId → Bool}

theorem holds_of_positioned {entry : Nat × Subtree} (hEntry : entry ∈ s.positioned start)
    (h : entry.2.Holds entry.1 place) : s.Holds start place := by
  obtain ⟨path, hPath⟩ := h
  obtain ⟨i, hi⟩ := List.mem_iff_getElem?.mp hEntry
  refine ⟨i :: path, ?_⟩
  rw [at?, hi, Option.bind_some, hPath]

theorem Reused.holds (h : Reused fresh start s place) : s.Holds start place := by
  induction h with
  | here _ => exact ⟨[], rfl⟩
  | deeper _ hEntry _ ih => exact holds_of_positioned hEntry ih

theorem Reused.among (hTiled : Tiled info children) (hFresh : fresh info.id = true)
    (h : Reused fresh start (node info children) place) : Among (Reused fresh) start children place := by
  cases h with
  | here hStale => exact absurd (hStale.symm.trans hFresh) Bool.false_ne_true
  | deeper _ hEntry h =>
    exact ⟨_, hTiled.positioned_eq (s := node info children) start ▸ hEntry, h⟩

theorem Among.holds (hTiled : Tiled info children) (h : Among Holds start children place) :
    (node info children).Holds start place := by
  obtain ⟨entry, hEntry, h⟩ := h
  have hPositioned : (node info children).positioned start = laid start children :=
    hTiled.positioned_eq (s := node info children) start
  exact holds_of_positioned (hPositioned ▸ hEntry) h

theorem among_append (a b : List Subtree) :
    Among Has start (a ++ b) place ↔ Among Has start a place ∨ Among Has (start + totalOf size a) b place := by
  simp only [Among, laid_append, List.mem_append, or_and_right, exists_or]

theorem among_singleton : Among Has start [s] place ↔ Has start s place := by
  simp [Among, laid]

/-! ## Rows drawn anew -/

/-- A row of subtrees that looks like the old one and holds the places that the old one has. -/
structure Redrawn (l : Language) (Has : Nat → Subtree → Nat × Subtree → Prop) (old new : List Subtree) : Prop
    extends LooksAlike l old new where
  nodes : ∀ s ∈ new, s.All (Recorded l)
  holds : ∀ start place, Among Has start old place → Among Holds start new place

namespace Redrawn

theorem refl (hHas : ∀ start s place, Has start s place → s.Holds start place) (h : ∀ s ∈ old, s.All (Recorded l)) :
    Redrawn l Has old old :=
  ⟨.refl l old, h, fun _ _ ⟨entry, hEntry, hPlace⟩ => ⟨entry, hEntry, hHas _ _ _ hPlace⟩⟩

theorem trans (h : Redrawn l Has old mid) (h' : Redrawn l Holds mid new) : Redrawn l Has old new :=
  ⟨h.toLooksAlike.trans h'.toLooksAlike, h'.nodes, fun start place hPlace => h'.holds start place (h.holds start place hPlace)⟩

theorem append {old' new' : List Subtree} (h : Redrawn l Has old new) (h' : Redrawn l Has old' new') :
    Redrawn l Has (old ++ old') (new ++ new') := by
  constructor
  · exact h.toLooksAlike.append h'.toLooksAlike
  · intro s hs
    exact (List.mem_append.mp hs).elim (h.nodes s) (h'.nodes s)
  · intro start place hPlace
    rw [among_append] at hPlace ⊢
    rw [h.size]
    exact hPlace.imp (h.holds _ _) (h'.holds _ _)

theorem link (h : Redrawn l Has old children) (hLinking : Linking l info children) :
    Redrawn l Has old [node info children] := by
  constructor
  · exact h.toLooksAlike.trans hLinking.looksAlike.symm
  · intro s hs
    rw [List.mem_singleton.mp hs]
    exact .node hLinking.toRecorded h.nodes
  · intro start place hPlace
    exact among_singleton.mpr ((h.holds start place hPlace).holds hLinking.toTiled)

theorem unlink (hLinking : Linking l info children) (hFresh : fresh info.id = true)
    (h : Redrawn l (Reused fresh) children new) : Redrawn l (Reused fresh) [node info children] new := by
  constructor
  · exact hLinking.looksAlike.trans h.toLooksAlike
  · exact h.nodes
  · intro start place hPlace
    -- The link is fresh, so that what is reused of it lies below.
    exact h.holds start place ((among_singleton.mp hPlace).among hLinking.toTiled hFresh)

end Redrawn

end Subtree
end Reparse
