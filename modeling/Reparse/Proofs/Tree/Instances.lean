import Reparse.Grammar.Lowered
import Reparse.Proofs.Tree.Edited
import Reparse.Parse.Balance
/-!
# Nodes as instances of productions

A node with a production has the left-hand side of that production as its symbol, and its children are the right-hand
side with extras between them. Edits leave symbols and extras where they are, and balancing puts links `R -> R R` in the
place of links `R -> R R`, so neither makes a node that is no instance.
-/
namespace Reparse
namespace Subtree

/-! ## Structural symbols -/

/-- The symbols of the subtrees that are no extras. -/
def symbolsOf (children : List Subtree) : List Symbol := (children.filter fun c => !c.isExtra).map symbol

@[simp] theorem symbolsOf_append (a b : List Subtree) : symbolsOf (a ++ b) = symbolsOf a ++ symbolsOf b := by
  rw [symbolsOf, List.filter_append, List.map_append, symbolsOf, symbolsOf]

theorem symbolsOf_extras {children : List Subtree} (h : ∀ c ∈ children, c.isExtra = true) : symbolsOf children = [] := by
  rw [symbolsOf, List.filter_eq_nil_iff.mpr, List.map_nil]
  intro c hc
  simp [h c hc]

theorem symbolsOf_singleton {s : Subtree} (h : s.isExtra = false) : symbolsOf [s] = [s.symbol] := by
  simp [symbolsOf, h]

theorem mem_symbolsOf {children : List Subtree} {c : Subtree} (hc : c ∈ children) (hExtra : c.isExtra = false) :
    c.symbol ∈ symbolsOf children :=
  List.mem_map.mpr ⟨c, List.mem_filter.mpr ⟨hc, by simp [hExtra]⟩, rfl⟩

/-- Seen from the parent the two are the same. -/
structure Resembles (a b : Subtree) : Prop where
  symbol : a.symbol = b.symbol
  extra : a.isExtra = b.isExtra

theorem symbolsOf_congr {a b : List Subtree} (h : List.Forall₂ Resembles a b) : symbolsOf a = symbolsOf b := by
  induction h with
  | nil => rfl
  | @cons x y a b hHere _ ih =>
    have hEach (s : Subtree) (rest : List Subtree) : symbolsOf (s :: rest) = symbolsOf [s] ++ symbolsOf rest :=
      symbolsOf_append [s] rest
    rw [hEach x, hEach y, ih]
    cases hExtra : y.isExtra with
    | true =>
      have hNone {s : Subtree} (h : s.isExtra = true) : symbolsOf [s] = [] := symbolsOf_extras (by simpa using h)
      rw [hNone hExtra, hNone (hHere.extra.trans hExtra)]
    | false => rw [symbolsOf_singleton hExtra, symbolsOf_singleton (hHere.extra.trans hExtra), hHere.symbol]

/-! ## Instances -/

variable {t : Table} {w : LoweredGrammar} {l : Language} {info : NodeInfo} {children : List Subtree} {s : Subtree}

/-- The node's symbol is the left-hand side of its production, if it has one, and its children are the right-hand side
with extras between them. -/
def Made (w : LoweredGrammar) (info : NodeInfo) (children : List Subtree) : Prop :=
  info.production ≠ noProduction → ∃ p, w.productions[info.production.toNat]? = some p ∧ info.symbol = p.lhs ∧
    symbolsOf children = p.rhs

/-- A node as a parse builds it. Only errors and the extras of the table are extras. -/
structure Instance (t : Table) (w : LoweredGrammar) (info : NodeInfo) (children : List Subtree) : Prop where
  offsets : info.offsets.length = children.length
  extra : info.extra = true → info.symbol = .error ∨ t.isExtra info.symbol = true
  made : Made w info children

theorem Instance.congr {new : NodeInfo} (h : Instance t w info children) (hOffsets : new.offsets = info.offsets)
    (hSymbol : new.symbol = info.symbol) (hProduction : new.production = info.production)
    (hExtra : new.extra = true → info.extra = true) : Instance t w new children where
  offsets := hOffsets ▸ h.offsets
  extra hNew := hSymbol ▸ h.extra (hExtra hNew)
  made hNew := by
    rw [hProduction] at hNew ⊢
    rw [hSymbol]
    exact h.made hNew

theorem all_instance_leaf (hOffsets : info.offsets = []) (hProduction : info.production = noProduction)
    (hExtra : info.extra = true → info.symbol = .error ∨ t.isExtra info.symbol = true) :
    (node info []).All (Instance t w) := by
  refine .node ⟨by rw [hOffsets]; rfl, hExtra, fun hNot => absurd hProduction hNot⟩ ?_
  simp

theorem all_instance_token {id : NodeId} {symbol : Symbol} {size lookahead : Nat} {state : StateId} {mode : LexModeId}
    {scannerState : Option (List UInt8)} :
    (leaf l id symbol size lookahead state mode scannerState).All (Instance l.table w) :=
  all_instance_leaf rfl rfl .inr

theorem all_instance_errorLeaf {id : NodeId} {size lookahead : Nat} {state : StateId} {mode : LexModeId} :
    (errorLeaf id size lookahead state mode).All (Instance t w) :=
  all_instance_leaf rfl rfl fun _ => .inl rfl

theorem all_instance_missingLeaf {id : NodeId} {symbol : Symbol} {state : StateId} {mode : LexModeId} :
    (missingLeaf id symbol state mode).All (Instance t w) :=
  all_instance_leaf rfl rfl fun hExtra => absurd hExtra Bool.false_ne_true

theorem all_instance_ofChildren {id : NodeId} {symbol : Symbol} {production : ProductionId} {state : StateId}
    (h : ∀ c ∈ children, c.All (Instance t w))
    (hProduction : production ≠ noProduction → ∃ p, w.productions[production.toNat]? = some p ∧ symbol = p.lhs ∧
      symbolsOf children = p.rhs) :
    (ofChildren l id symbol children production state).All (Instance t w) := by
  refine .node ⟨?_, fun hExtra => absurd hExtra Bool.false_ne_true, hProduction⟩ h
  rw [length_runningSums, List.length_map]

theorem all_instance_bare {id : NodeId} {symbol : Symbol} {state : StateId} (h : ∀ c ∈ children, c.All (Instance t w)) :
    (ofChildren l id symbol children noProduction state).All (Instance t w) :=
  all_instance_ofChildren h fun hNot => absurd rfl hNot

theorem all_instance_errorNode {id : NodeId} {state : StateId} (h : ∀ c ∈ children, c.All (Instance t w)) :
    (errorNode l id children state).All (Instance t w) := by
  have hNode : (ofChildren l id .error children noProduction state).All (Instance t w) := all_instance_bare h
  exact hNode.update ⟨hNode.here.offsets, fun _ => .inl rfl, hNode.here.made⟩

theorem All.instance_withLookahead (h : s.All (Instance t w)) (bytes : Nat) :
    (s.withLookahead bytes).All (Instance t w) :=
  h.update (h.here.congr rfl rfl rfl fun hExtra => hExtra)

/-! ## Edits -/

mutual

/-- An edit changes neither what a node stands for nor which children it has. -/
theorem instance_edited (e : Edit) (id : NodeId) : ∀ s : Subtree, s.All (Instance t w) →
    (edited e id s).1.All (Instance t w) ∧ (edited e id s).1.Resembles s
  | .node info children, h => by
    obtain ⟨hNew, hSame⟩ := instance_editedAmong e false id info.offsets children h.here.offsets h.child
    rw [edited]
    refine ⟨.node ⟨?_, h.here.extra, fun hNot => ?_⟩ hNew, rfl, rfl⟩
    · rw [length_runningSums, List.length_map]
    · rw [symbolsOf_congr hSame]
      exact h.here.made hNot

theorem instance_editedAmong (e : Edit) (absorbed : Bool) (id : NodeId) : ∀ (offsets : List Nat) (children : List Subtree),
    offsets.length = children.length → (∀ c ∈ children, c.All (Instance t w)) →
      (∀ c ∈ (editedAmong e absorbed id offsets children).1, c.All (Instance t w)) ∧
        List.Forall₂ Resembles (editedAmong e absorbed id offsets children).1 children
  | offset :: offsets, c :: rest, hLength, h => by
    have hRest := fun c hc => h c (List.mem_cons_of_mem _ hc)
    have hShorter : offsets.length = rest.length := Nat.succ_inj.mp hLength
    rw [editedAmong]
    split
    · obtain ⟨hHere, hLike⟩ := instance_edited (share e absorbed offset c) id c (h c List.mem_cons_self)
      obtain ⟨hThere, hLikes⟩ := instance_editedAmong e (absorbed || e.start ≤ offset + c.size)
        (edited (share e absorbed offset c) id c).2 offsets rest hShorter hRest
      exact ⟨by simpa using ⟨hHere, hThere⟩, .cons hLike hLikes⟩
    · obtain ⟨hThere, hLikes⟩ := instance_editedAmong e absorbed id offsets rest hShorter hRest
      exact ⟨by simpa using ⟨h c List.mem_cons_self, hThere⟩, .cons ⟨rfl, rfl⟩ hLikes⟩
  | [], [], _, _ => by
    rw [editedAmong]
    · exact ⟨by simp, .nil⟩
    · simp
  | [], _ :: _, hLength, _ => by cases hLength
  | _ :: _, [], hLength, _ => by cases hLength

end

/-! ## Balancing -/

/-- The production is `R -> R R`. -/
def Doubling (w : LoweredGrammar) (repetition : Symbol) (id : ProductionId) : Prop :=
  ∃ p, w.productions[id.toNat]? = some p ∧ p.lhs = repetition ∧ p.rhs = [repetition, repetition]

/-- What the table says of repetitions is so: their links are made by `R -> R R`, and none of them is an extra. -/
structure Repeats (t : Table) (w : LoweredGrammar) : Prop where
  doubling : ∀ s id, t.binaryRepeat s = some id → id ≠ noProduction ∧ Doubling w s id
  noExtra : ∀ s id, t.binaryRepeat s = some id → s ≠ .error ∧ t.isExtra s = false

/-- An extra between the items of a chain. -/
def IsGap (t : Table) (w : LoweredGrammar) (s : Subtree) : Prop := s.All (Instance t w) ∧ s.isExtra = true

/-- An item of a chain, or a part of one, of the repetition. -/
def IsItem (t : Table) (w : LoweredGrammar) (repetition : Symbol) (s : Subtree) : Prop :=
  s.All (Instance t w) ∧ s.isExtra = false ∧ s.symbol = repetition

/-- A part of a chain: an item or an extra. -/
def IsPiece (t : Table) (w : LoweredGrammar) (repetition : Symbol) (s : Subtree) : Prop :=
  s.All (Instance t w) ∧ (s.isExtra = false → s.symbol = repetition)

theorem IsPiece.cases {repetition : Symbol} (h : IsPiece t w repetition s) : IsGap t w s ∨ IsItem t w repetition s := by
  cases hExtra : s.isExtra with
  | true => exact .inl ⟨h.1, hExtra⟩
  | false => exact .inr ⟨h.1, hExtra, h.2 hExtra⟩

/-- A chain of the repetition. -/
structure Strung (t : Table) (w : LoweredGrammar) (repetition : Symbol) (c : Chain) : Prop where
  leading : ∀ s ∈ c.leading, IsGap t w s
  items : ∀ s ∈ c.items, IsItem t w repetition s
  gaps : ∀ gap ∈ c.gaps, ∀ s ∈ gap, IsGap t w s
  trailing : ∀ s ∈ c.trailing, IsGap t w s

theorem Strung.add {repetition : Symbol} {c : Chain} (h : Strung t w repetition c) {piece : Subtree}
    (hPiece : IsPiece t w repetition piece) : Strung t w repetition (c.add piece) := by
  obtain ⟨hLeading, hItems, hGaps, hTrailing⟩ := h
  have hWith {old : List Subtree} (hOld : ∀ s ∈ old, IsGap t w s) (hGap : IsGap t w piece) :
      ∀ s ∈ old ++ [piece], IsGap t w s := by
    intro s hs
    rcases List.mem_append.mp hs with hs | hs
    · exact hOld s hs
    · rwa [List.mem_singleton.mp hs]
  rw [Chain.add]
  rcases hPiece.cases with hGap | hItem
  · rw [if_pos hGap.2]
    split
    · exact ⟨hWith hLeading hGap, hItems, hGaps, hTrailing⟩
    · exact ⟨hLeading, hItems, hGaps, hWith hTrailing hGap⟩
  · rw [if_neg (by simp [hItem.2.1])]
    split
    · refine ⟨hLeading, fun s hs => ?_, hGaps, hTrailing⟩
      rwa [List.mem_singleton.mp (Array.mem_def.mp hs)]
    · refine ⟨hLeading, fun s hs => ?_, fun gap hMem => ?_, by simp⟩
      · rcases Array.mem_push.mp hs with hs | rfl
        · exact hItems s hs
        · exact hItem
      · rcases Array.mem_push.mp hMem with hMem | rfl
        · exact hGaps gap hMem
        · exact hTrailing

theorem strung_ofPieces {repetition : Symbol} {pieces : List Subtree} (h : ∀ s ∈ pieces, IsPiece t w repetition s) :
    Strung t w repetition (Chain.ofPieces pieces) := by
  have hFold (rest : List Subtree) (hRest : ∀ s ∈ rest, IsPiece t w repetition s) (c : Chain) (hc : Strung t w repetition c) :
      Strung t w repetition (rest.foldl Chain.add c) := by
    induction rest generalizing c with
    | nil => exact hc
    | cons piece rest ih =>
      exact ih (fun s hs => hRest s (List.mem_cons_of_mem _ hs)) _ (hc.add (hRest piece List.mem_cons_self))
  exact hFold pieces h ⟨[], #[], #[], []⟩ ⟨by simp, by simp, by simp, by simp⟩

/-- Two parts of a chain with extras around them are put under a link. -/
theorem IsItem.link {repetition : Symbol} {id : ProductionId} {left right : Subtree}
    {leading between trailing : List Subtree} (hDoubling : Doubling w repetition id) (hLeading : ∀ s ∈ leading, IsGap t w s)
    (hLeft : IsItem t w repetition left) (hBetween : ∀ s ∈ between, IsGap t w s) (hRight : IsItem t w repetition right)
    (hTrailing : ∀ s ∈ trailing, IsGap t w s) (number : NodeId) (state : StateId) :
    IsItem t w repetition
      (ofChildren l number repetition (leading ++ [left] ++ between ++ [right] ++ trailing) id state) := by
  have hNone {extras : List Subtree} (h : ∀ s ∈ extras, IsGap t w s) : symbolsOf extras = [] :=
    symbolsOf_extras fun s hs => (h s hs).2
  obtain ⟨p, hp, hLhs, hRhs⟩ := hDoubling
  refine ⟨all_instance_ofChildren (fun c hc => ?_) fun _ => ⟨p, hp, hLhs.symm, ?_⟩, rfl, rfl⟩
  · simp only [List.mem_append, List.mem_singleton] at hc
    rcases hc with (((hc | rfl) | hc) | rfl) | hc
    · exact (hLeading c hc).1
    · exact hLeft.1
    · exact (hBetween c hc).1
    · exact hRight.1
    · exact (hTrailing c hc).1
  · simp only [symbolsOf_append]
    rw [hNone hLeading, hNone hBetween, hNone hTrailing, symbolsOf_singleton hLeft.2.1, symbolsOf_singleton hRight.2.1,
      hLeft.2.2, hRight.2.2, hRhs]
    rfl

theorem Strung.build {repetition : Symbol} {c : Chain} (h : Strung t w repetition c) {production : ProductionId}
    (hDoubling : Doubling w repetition production) (weights : Array Nat) {lo hi : Nat}
    {leading trailing : List Subtree} {id : NodeId} (hLo : lo < hi) (hHi : hi ≤ c.items.size) (hLeading : ∀ s ∈ leading, IsGap t w s)
    (hTrailing : ∀ s ∈ trailing, IsGap t w s) :
    IsItem t w repetition (c.build ⟨l, repetition, production⟩ weights lo hi leading trailing id).1 := by
  generalize hMaker : (⟨l, repetition, production⟩ : Chain.Maker) = m
  fun_induction Chain.build m c weights lo hi leading trailing id with
  | case1 lo hi leading trailing id first hMore split hBounds left id' hLeft right id'' hRight between children
      ihLeft ihRight =>
    subst hMaker
    obtain ⟨hSplit, hBelow⟩ : lo < split ∧ split < hi := ⟨hBounds.1, hBounds.2⟩
    have hFirst := ihLeft hSplit (Nat.le_trans (Nat.le_of_lt hBelow) hHi) (by simp) (by simp)
    have hSecond := ihRight hBelow hHi (by simp) (by simp)
    rw [hLeft] at hFirst
    rw [hRight] at hSecond
    refine IsItem.link hDoubling hLeading hFirst ?_ hSecond hTrailing _ _
    intro s hs
    cases hGap : c.gaps[split - 1]? with
    | none => simp [between, hGap] at hs
    | some gap =>
      simp only [between, hGap, Option.getD_some] at hs
      exact h.gaps gap (Array.mem_of_getElem? hGap) s hs
  | case2 lo hi leading trailing id first hDone =>
    have hItem : c.items[lo]? = some c.items[lo] := Array.getElem?_eq_getElem (by omega)
    simp only [first, hItem, Option.getD_some]
    exact h.items _ (Array.getElem_mem _)

variable {b : Balancing}

/-- A link is an instance of `R -> R R`. -/
theorem Instance.of_isLink (hRepeats : Repeats b.language.table w) (h : Instance b.language.table w info children)
    (hLink : b.isLink info = true) : Doubling w info.symbol info.production ∧ info.extra = false ∧
      ∀ c ∈ children, c.isExtra = false → c.symbol = info.symbol := by
  simp only [Balancing.isLink, Bool.and_eq_true, beq_iff_eq] at hLink
  obtain ⟨hId, p, hp, hLhs, hRhs⟩ := hRepeats.doubling _ _ hLink.2
  obtain ⟨hError, hExtra⟩ := hRepeats.noExtra _ _ hLink.2
  refine ⟨⟨p, hp, hLhs, hRhs⟩, ?_, fun c hc hStructural => ?_⟩
  · by_contra hIs
    rcases h.extra (by simpa using hIs) with hSymbol | hSymbol
    · exact hError hSymbol
    · exact Bool.false_ne_true (hExtra.symm.trans hSymbol)
  · obtain ⟨p', hp', _, hSymbols⟩ := h.made hId
    obtain rfl := Option.some.inj (hp.symm.trans hp')
    have hMem := mem_symbolsOf hc hStructural
    rw [hSymbols, hRhs] at hMem
    simpa using hMem

/-- A link is rebuilt over the pieces of its chain. -/
theorem instance_rebuildChain (hNode : (node info children).All (Instance t w))
    (hDoubling : Doubling w info.symbol info.production) (hExtra : info.extra = false) {pieces : List Subtree}
    (hPieces : ∀ s ∈ pieces, IsPiece t w info.symbol s) (id : NodeId) :
    (rebuildChain l info children pieces id).1.All (Instance t w) ∧
      (rebuildChain l info children pieces id).1.Resembles (node info children) := by
  have hStrung := strung_ofPieces hPieces
  rw [rebuildChain]
  dsimp only
  split
  · exact ⟨hNode, rfl, rfl⟩
  next hItems =>
    have hItem : IsItem t w info.symbol ((Chain.ofPieces pieces).build ⟨l, info.symbol, info.production⟩
        (Chain.weights (Chain.ofPieces pieces).items.toList) 0 (Chain.ofPieces pieces).items.size
        (Chain.ofPieces pieces).leading (Chain.ofPieces pieces).trailing id).1 :=
      hStrung.build hDoubling _ (by omega) (Nat.le_refl _) hStrung.leading hStrung.trailing
    obtain ⟨hTop, hTopExtra, hSymbol⟩ := hItem
    exact ⟨hTop.instance_withLookahead _, hSymbol, hTopExtra.trans hExtra.symm⟩

/-- A node is rebuilt over children that look the same. -/
theorem instance_rebuild (h : Instance t w info children) {new : List Subtree} (hNew : ∀ c ∈ new, c.All (Instance t w))
    (hSame : List.Forall₂ Resembles new children) (id : NodeId) :
    (rebuild l info id new).All (Instance t w) ∧ (rebuild l info id new).Resembles (node info children) := by
  have hNode : (ofChildren l id info.symbol new info.production info.state).All (Instance t w) := by
    apply all_instance_ofChildren hNew
    rw [symbolsOf_congr hSame]
    exact h.made
  have hTop := hNode.instance_withLookahead info.lookahead
  refine ⟨All.update (f := fun new => { new with extra := info.extra }) hTop ?_, rfl, rfl⟩
  exact ⟨hTop.here.offsets, h.extra, hTop.here.made⟩

mutual

theorem instance_balanced (hRepeats : Repeats b.language.table w) (id : NodeId) : ∀ s : Subtree,
    s.All (Instance b.language.table w) →
      (balanced b id s).1.All (Instance b.language.table w) ∧ (balanced b id s).1.Resembles s
  | .node info children, h => by
    rw [balanced]
    split
    · exact ⟨h, rfl, rfl⟩
    split
    next hLink =>
      obtain ⟨hDoubling, hExtra, hSymbols⟩ := h.here.of_isLink hRepeats hLink
      have hPieces := instance_chainPieces hRepeats info.symbol id children fun c hc => ⟨h.child c hc, hSymbols c hc⟩
      exact instance_rebuildChain h hDoubling hExtra hPieces _
    next hLink =>
      obtain ⟨hNew, hSame⟩ := instance_balancedAll hRepeats id children h.child
      dsimp only
      split
      · exact ⟨h, rfl, rfl⟩
      · exact instance_rebuild h.here hNew hSame _

theorem instance_balancedAll (hRepeats : Repeats b.language.table w) (id : NodeId) : ∀ children : List Subtree,
    (∀ c ∈ children, c.All (Instance b.language.table w)) →
      (∀ c ∈ (balancedAll b id children).1, c.All (Instance b.language.table w)) ∧
        List.Forall₂ Resembles (balancedAll b id children).1 children
  | [], h => by
    rw [balancedAll]
    exact ⟨h, .nil⟩
  | c :: rest, h => by
    rw [balancedAll]
    obtain ⟨hHere, hLike⟩ := instance_balanced hRepeats id c (h c List.mem_cons_self)
    obtain ⟨hThere, hLikes⟩ := instance_balancedAll hRepeats (balanced b id c).2 rest fun c hc =>
      h c (List.mem_cons_of_mem _ hc)
    exact ⟨by simpa using ⟨hHere, hThere⟩, .cons hLike hLikes⟩

theorem instance_chainPieces (hRepeats : Repeats b.language.table w) (repetition : Symbol) (id : NodeId) :
    ∀ children : List Subtree, (∀ c ∈ children, IsPiece b.language.table w repetition c) →
      ∀ s ∈ (chainPieces b repetition id children).1, IsPiece b.language.table w repetition s
  | [], _ => by
    rw [chainPieces]
    simp
  | .node info children :: rest, h => by
    have hRest := fun c hc => h c (List.mem_cons_of_mem _ hc)
    obtain ⟨hNode, hSymbol⟩ := h _ List.mem_cons_self
    rw [chainPieces]
    dsimp only
    split
    next hLink =>
      obtain ⟨_, _, hSymbols⟩ := hNode.here.of_isLink hRepeats hLink.2
      have hInner := instance_chainPieces hRepeats repetition id children fun c hc =>
        ⟨hNode.child c hc, fun hStructural => (hSymbols c hc hStructural).trans hLink.1⟩
      have hOthers := instance_chainPieces hRepeats repetition (chainPieces b repetition id children).2 rest hRest
      intro s hs
      rcases List.mem_append.mp hs with hs | hs
      · exact hInner s hs
      · exact hOthers s hs
    next hLink =>
      obtain ⟨hBalanced, hLike⟩ := instance_balanced hRepeats id (.node info children) hNode
      have hOthers := instance_chainPieces hRepeats repetition (balanced b id (.node info children)).2 rest hRest
      intro s hs
      rcases List.mem_cons.mp hs with rfl | hs
      · exact ⟨hBalanced, fun hStructural => hLike.symbol.trans (hSymbol (hLike.extra.symm.trans hStructural))⟩
      · exact hOthers s hs

end

end Subtree
end Reparse
