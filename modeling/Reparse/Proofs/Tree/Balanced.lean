import Reparse.Parse.Balance
import Reparse.Proofs.Tree.Grown
/-!
# Balanced trees

A chain of a repetition is flattened into pieces and built anew over the same pieces, so balancing changes
neither the size of a node nor what its nodes are.
-/
namespace Reparse

open Subtree

namespace Chain

variable {c d : Chain}

def item (c : Chain) (i : Nat) : Subtree := (c.items[i]?).getD default

/-- The extras after the item with index `i`. -/
def gap (c : Chain) (i : Nat) : List Subtree := (c.gaps[i]?).getD []

/-- So many items from `lo` on, with the extras between them. -/
def span (c : Chain) (lo : Nat) : (count : Nat) → List Subtree
  | 0 => []
  | 1 => [c.item lo]
  | count + 2 => c.item lo :: c.gap lo ++ c.span (lo + 1) (count + 1)

theorem span_add (c : Chain) (lo : Nat) {a b : Nat} (ha : 0 < a) (hb : 0 < b) :
    c.span lo (a + b) = c.span lo a ++ c.gap (lo + a - 1) ++ c.span (lo + a) b := by
  induction a generalizing lo with
  | zero => omega
  | succ a ih =>
    obtain ⟨b, rfl⟩ : ∃ n, b = n + 1 := ⟨b - 1, by omega⟩
    cases a with
    | zero => simp [span, show 1 + (b + 1) = b + 2 by omega]
    | succ a =>
      have hRest := ih (lo + 1) (Nat.succ_pos a)
      rw [show a + 1 + 1 + (b + 1) = (a + 1 + b) + 2 by omega, span, show a + 1 + b + 1 = a + 1 + (b + 1) by omega, hRest,
        show lo + 1 + (a + 1) = lo + (a + 1 + 1) by omega, span]
      simp

theorem span_congr {lo count : Nat} (hItems : ∀ i, i < lo + count → c.item i = d.item i)
    (hGaps : ∀ i, i + 1 < lo + count → c.gap i = d.gap i) : c.span lo count = d.span lo count := by
  induction count generalizing lo with
  | zero => rfl
  | succ count ih =>
    cases count with
    | zero => simp [span, hItems lo (by omega)]
    | succ count =>
      rw [span, span, hItems lo (by omega), hGaps lo (by omega),
        ih (fun i hi => hItems i (by omega)) fun i hi => hGaps i (by omega)]

/-! ## Flattening -/

/-- All pieces, in order. -/
def pieces (c : Chain) : List Subtree := c.leading ++ c.span 0 c.items.size ++ c.trailing

/-- There is a gap between any two items, and extras come after an item. -/
structure Fits (c : Chain) : Prop where
  gaps : c.gaps.size + 1 = c.items.size ∨ (c.gaps.size = 0 ∧ c.items.size = 0)
  trailing : c.items.size = 0 → c.trailing = []

theorem Fits.add (h : c.Fits) (piece : Subtree) : (c.add piece).Fits ∧ (c.add piece).pieces = c.pieces ++ [piece] := by
  obtain ⟨hGaps, hTrailing⟩ := h
  rw [Chain.add]
  split
  · split
    next hEmpty =>
      have hSize : c.items.size = 0 := by simpa using hEmpty
      exact ⟨⟨hGaps, hTrailing⟩, by simp [pieces, hSize, span, hTrailing hSize]⟩
    next hSome =>
      have hSize : c.items.size ≠ 0 := by simpa using hSome
      refine ⟨⟨hGaps, fun hNone => absurd hNone hSize⟩, ?_⟩
      have hSpan : c.span 0 c.items.size = Chain.span { c with trailing := c.trailing ++ [piece] } 0 c.items.size :=
        span_congr (fun _ _ => rfl) fun _ _ => rfl
      simp [pieces, hSpan]
  · split
    next hEmpty =>
      have hSize : c.items.size = 0 := by simpa using hEmpty
      have hNoGaps : c.gaps.size = 0 := by omega
      refine ⟨⟨.inl (by simp [hNoGaps]), fun hNone => absurd hNone (by simp)⟩, ?_⟩
      simp [pieces, hSize, span, item, hTrailing hSize]
    next hSome =>
      have hSize : c.items.size ≠ 0 := by simpa using hSome
      have hCount : c.gaps.size + 1 = c.items.size := by omega
      refine ⟨⟨.inl (by simp [hCount]), fun hNone => absurd hNone (by simp)⟩, ?_⟩
      have hSpan : c.span 0 c.items.size =
          Chain.span { c with items := c.items.push piece, gaps := c.gaps.push c.trailing, trailing := [] } 0 c.items.size := by
        refine span_congr (fun i hi => ?_) fun i hi => ?_
        · simp only [item]
          rw [Array.getElem?_push_lt (by omega), Array.getElem?_eq_getElem (by omega)]
        · simp only [gap]
          rw [Array.getElem?_push_lt (by omega), Array.getElem?_eq_getElem (by omega)]
      simp only [pieces, Array.size_push]
      rw [span_add _ 0 (by omega) (by omega), ← hSpan]
      have hGap : Chain.gap { c with items := c.items.push piece, gaps := c.gaps.push c.trailing, trailing := [] }
          (0 + c.items.size - 1) = c.trailing := by
        simp [gap, ← hCount]
      rw [hGap]
      simp [span, item]

theorem ofPieces_fits (pieces : List Subtree) : (ofPieces pieces).Fits ∧ (ofPieces pieces).pieces = pieces := by
  have hFold (rest : List Subtree) (c : Chain) (h : c.Fits) :
      (rest.foldl Chain.add c).Fits ∧ (rest.foldl Chain.add c).pieces = c.pieces ++ rest := by
    induction rest generalizing c with
    | nil => exact ⟨h, by simp⟩
    | cons piece rest ih =>
      obtain ⟨hFits, hPieces⟩ := h.add piece
      obtain ⟨hFits', hPieces'⟩ := ih _ hFits
      exact ⟨hFits', by rw [List.foldl_cons, hPieces', hPieces, List.append_assoc, List.singleton_append]⟩
  exact hFold pieces ⟨[], #[], #[], []⟩ ⟨.inr ⟨rfl, rfl⟩, fun _ => rfl⟩

/-! ## Building anew -/

theorem span_split (c : Chain) {lo split hi : Nat} (hLo : lo < split) (hHi : split < hi) :
    c.span lo (hi - lo) = c.span lo (split - lo) ++ c.gap (split - 1) ++ c.span split (hi - split) := by
  have hCount : hi - lo = split - lo + (hi - split) := by omega
  rw [hCount, c.span_add lo (by omega) (by omega), Nat.add_sub_cancel' (Nat.le_of_lt hLo)]

theorem span_one (c : Chain) {lo hi : Nat} (hLo : lo < hi) (h : ¬lo + 1 < hi) : c.span lo (hi - lo) = [c.item lo] := by
  rw [show hi - lo = 1 by omega]
  rfl

end Chain

namespace Subtree

variable {l : Language} {first id next : NodeId} {old new : List Subtree}

/-- From some subtrees others of the same total size are built, with nodes numbered from `id` up to `next`. -/
structure Regrown (l : Language) (first id : NodeId) (old new : List Subtree) (next : NodeId) : Prop where
  le : id ≤ next
  nodes : ∀ s ∈ new, s.All (Grown l first next)
  size : totalOf size new = totalOf size old

theorem Regrown.refl (h : ∀ s ∈ old, s.All (Grown l first id)) : Regrown l first id old old id := ⟨Nat.le_refl _, h, rfl⟩

theorem Regrown.append {old' new' : List Subtree} {last : NodeId} (h : Regrown l first id old new next)
    (h' : Regrown l first next old' new' last) : Regrown l first id (old ++ old') (new ++ new') last where
  le := Nat.le_trans h.le h'.le
  nodes s hs := by
    rcases List.mem_append.mp hs with hs | hs
    · exact (h.nodes s hs).later h'.le
    · exact h'.nodes s hs
  size := by rw [totalOf_append, totalOf_append, h.size, h'.size]

/-- A node over what was built. -/
theorem Regrown.ofChildren (h : Regrown l first id old new next) {symbol : Symbol} (hSymbol : symbol ≠ .eof)
    (production : ProductionId) (state : StateId) :
    Regrown l first id old [Subtree.ofChildren l next symbol new production state] (next + 1) where
  le := Nat.le_succ_of_le h.le
  nodes s hs := by
    rw [List.mem_singleton.mp hs]
    exact all_grown_ofChildren production state hSymbol h.nodes
  size := h.size

theorem Regrown.withLookahead {s : Subtree} (h : Regrown l first id old [s] next) (bytes : Nat) :
    Regrown l first id old [s.withLookahead bytes] next where
  le := h.le
  nodes := by simpa using (h.nodes s List.mem_cons_self).grown_withLookahead bytes
  size := h.size

theorem Regrown.trans {mid : List Subtree} {last : NodeId} (h : Regrown l first id old mid next)
    (h' : Regrown l first next mid new last) : Regrown l first id old new last :=
  ⟨Nat.le_trans h.le h'.le, h'.nodes, h'.size.trans h.size⟩

theorem build_regrown {c : Chain} {m : Chain.Maker} (hSymbol : m.symbol ≠ .eof) (weights : Array Nat) {lo hi : Nat}
    {leading trailing : List Subtree} (hLo : lo < hi) (hOne : lo + 1 = hi → leading = [] ∧ trailing = [])
    (hNodes : ∀ s ∈ leading ++ c.span lo (hi - lo) ++ trailing, s.All (Grown m.language first id)) :
    Regrown m.language first id (leading ++ c.span lo (hi - lo) ++ trailing)
      [(c.build m weights lo hi leading trailing id).1] (c.build m weights lo hi leading trailing id).2 := by
  fun_induction Chain.build m c weights lo hi leading trailing id with
  | case1 lo hi leading trailing id _ _ split hBounds left id' hLeft right id'' hRight between children ihLeft ihRight =>
    obtain ⟨hSplit, hBelow⟩ : lo < split ∧ split < hi := ⟨hBounds.1, hBounds.2⟩
    have hSpan := c.span_split hSplit hBelow
    have hOld : leading ++ c.span lo (hi - lo) ++ trailing =
        leading ++ c.span lo (split - lo) ++ c.gap (split - 1) ++ c.span split (hi - split) ++ trailing := by
      simp [hSpan]
    rw [hOld] at hNodes ⊢
    simp only [List.mem_append] at hNodes
    have hLeftGrown := ihLeft hSplit (fun _ => ⟨rfl, rfl⟩) fun s hs => hNodes s (by simp at hs; simp [hs])
    rw [hLeft] at hLeftGrown
    have hLe := hLeftGrown.le
    have hRightGrown := ihRight hBelow (fun _ => ⟨rfl, rfl⟩) fun s hs =>
      (hNodes s (by simp at hs; simp [hs])).later hLe
    rw [hRight] at hRightGrown
    have hLe' := hRightGrown.le
    simp only [List.nil_append, List.append_nil] at hLeftGrown hRightGrown
    -- The pieces in order, those between the parts being left as they are.
    have hLeading : Regrown m.language first id leading leading id := .refl fun s hs =>
      hNodes s (by simp [hs])
    have hBetween : Regrown m.language first id' (c.gap (split - 1)) (c.gap (split - 1)) id' := .refl fun s hs =>
      (hNodes s (by simp [hs])).later hLe
    have hTrailing : Regrown m.language first id'' trailing trailing id'' := .refl fun s hs =>
      (hNodes s (by simp [hs])).later (Nat.le_trans hLe hLe')
    exact ((((hLeading.append hLeftGrown).append hBetween).append hRightGrown).append hTrailing).ofChildren hSymbol _ _
  | case2 lo hi leading trailing id first' h =>
    obtain ⟨rfl, rfl⟩ := hOne (by omega)
    rw [c.span_one hLo h, List.nil_append, List.append_nil] at hNodes ⊢
    exact .refl hNodes

/-- A chain built anew is as large as its pieces together. -/
theorem rebuildChain_regrown {info : NodeInfo} {children pieces : List Subtree} (hSymbol : info.symbol ≠ .eof)
    (hNode : Regrown l first id pieces [node info children] id) (hPieces : ∀ s ∈ pieces, s.All (Grown l first id)) :
    Regrown l first id pieces [(rebuildChain l info children pieces id).1] (rebuildChain l info children pieces id).2 := by
  obtain ⟨_, hWhole⟩ := Chain.ofPieces_fits pieces
  rw [rebuildChain]
  dsimp only
  split
  next => exact hNode
  next hItems =>
    rw [Chain.pieces] at hWhole
    have hSome : 0 < (Chain.ofPieces pieces).items.size := by omega
    have hGrown := build_regrown (c := Chain.ofPieces pieces) (m := ⟨l, info.symbol, info.production⟩) hSymbol
      (Chain.weights (Chain.ofPieces pieces).items.toList) hSome (by omega)
      (by rw [Nat.sub_zero, hWhole]; exact hPieces)
    rw [Nat.sub_zero, hWhole] at hGrown
    exact hGrown.withLookahead _

/-- A node rebuilt over its children. -/
theorem Regrown.rebuild {info : NodeInfo} (h : Regrown l first id old new next) (hSymbol : info.symbol ≠ .eof) :
    Regrown l first id old [Subtree.rebuild l info next new] (next + 1) := by
  obtain ⟨hLe, hNodes, hSize⟩ := (h.ofChildren hSymbol info.production info.state).withLookahead info.lookahead
  refine ⟨hLe, fun s hs => ?_, hSize⟩
  have hNode := hNodes _ List.mem_cons_self
  rw [List.mem_singleton.mp hs]
  refine All.update (f := fun new => { new with extra := info.extra }) hNode ?_
  exact ⟨hNode.here.toSound.congr rfl rfl rfl (Nat.le_refl _), hNode.here.id_lt, hNode.here.ne_eof, hNode.here.leaf⟩

/-- No terminal stands for a repetition. -/
def RepeatsRules (l : Language) : Prop :=
  ∀ s, l.isTerminal s = true → l.table.binaryRepeat s = none

/-- Only the session's own nodes are balanced. -/
def balancing (l : Language) (first : NodeId) : Balancing := ⟨l, fun id => first ≤ id⟩

/-- A link is as large as its children together. -/
theorem Grown.size_of_isLink (hRepeats : RepeatsRules l) {info : NodeInfo} {children : List Subtree}
    (h : Grown l first id info children) (hLink : (balancing l first).isLink info = true) :
    info.size = totalOf size children := by
  by_cases hNil : children = []
  · subst hNil
    simp only [Balancing.isLink, balancing, Bool.and_eq_true, decide_eq_true_eq, beq_iff_eq] at hLink
    rcases h.leaf hLink.1 rfl with hSize | hTerminal
    · exact hSize
    · rw [hRepeats _ hTerminal] at hLink
      cases hLink.2
  · exact h.size hNil

mutual

theorem balanced_regrown (hRepeats : RepeatsRules l) (id : NodeId) : ∀ s : Subtree, s.All (Grown l first id) →
    Regrown l first id [s] [(balanced (balancing l first) id s).1] (balanced (balancing l first) id s).2
  | .node info children, h => by
    have hRefl : Regrown l first id [node info children] [node info children] id := .refl (by simpa using h)
    rw [balanced]
    split
    · exact hRefl
    split
    next hLink =>
      have hSize : info.size = totalOf size children := h.here.size_of_isLink hRepeats hLink
      obtain ⟨hLe, hNodes, hTotal⟩ := chainPieces_regrown hRepeats info.symbol id children h.child
      dsimp only
      refine Regrown.trans ⟨hLe, hNodes, ?_⟩ (rebuildChain_regrown h.here.ne_eof ⟨Nat.le_refl _, ?_, ?_⟩ hNodes)
      · simp [hTotal, size, hSize]
      · simpa using h.later hLe
      · simp [hTotal, size, hSize]
    next hLink =>
      have hChildren := balancedAll_regrown hRepeats id children h.child
      dsimp only
      split
      · exact ⟨hChildren.le, by simpa using h.later hChildren.le, rfl⟩
      next =>
        have hSize : info.size = totalOf size children := h.here.size (by simp_all)
        obtain ⟨hLe, hNodes, hTotal⟩ := hChildren.rebuild h.here.ne_eof
        exact ⟨hLe, hNodes, hTotal.trans (by simp [size, hSize])⟩

theorem balancedAll_regrown (hRepeats : RepeatsRules l) (id : NodeId) : ∀ children : List Subtree,
    (∀ c ∈ children, c.All (Grown l first id)) →
    Regrown l first id children (balancedAll (balancing l first) id children).1
      (balancedAll (balancing l first) id children).2
  | [], h => by
    rw [balancedAll]
    exact .refl h
  | c :: rest, h => by
    rw [balancedAll]
    have hHere := balanced_regrown hRepeats id c (h c List.mem_cons_self)
    have hRest := balancedAll_regrown hRepeats (balanced (balancing l first) id c).2 rest fun c hc =>
      (h c (List.mem_cons_of_mem _ hc)).later hHere.le
    exact hHere.append hRest

theorem chainPieces_regrown (hRepeats : RepeatsRules l) (symbol : Symbol) (id : NodeId) : ∀ children : List Subtree,
    (∀ c ∈ children, c.All (Grown l first id)) →
    Regrown l first id children (chainPieces (balancing l first) symbol id children).1
      (chainPieces (balancing l first) symbol id children).2
  | [], h => by
    rw [chainPieces]
    exact .refl h
  | .node info children :: rest, h => by
    have hNode := h _ List.mem_cons_self
    rw [chainPieces]
    dsimp only
    split
    next hLink =>
      have hSize : info.size = totalOf size children := hNode.here.size_of_isLink hRepeats hLink.2
      have hHere := chainPieces_regrown hRepeats symbol id children hNode.child
      have hRest := chainPieces_regrown hRepeats symbol (chainPieces (balancing l first) symbol id children).2 rest
        fun c hc => (h c (List.mem_cons_of_mem _ hc)).later hHere.le
      obtain ⟨hLe, hNodes, hTotal⟩ := hHere.append hRest
      exact ⟨hLe, hNodes, by rw [hTotal]; simp [size, hSize]⟩
    next =>
      have hHere := balanced_regrown hRepeats id (.node info children) hNode
      have hRest := chainPieces_regrown hRepeats symbol (balanced (balancing l first) id (.node info children)).2 rest
        fun c hc => (h c (List.mem_cons_of_mem _ hc)).later hHere.le
      exact hHere.append hRest

end

end Subtree
end Reparse
