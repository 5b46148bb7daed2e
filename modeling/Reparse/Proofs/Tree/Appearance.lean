import Reparse.Proofs.Parse.Apart
import Reparse.Proofs.Tree.Balanced
import Reparse.Proofs.Tree.Rows
/-!
# Balancing is not seen

Flattening a chain takes its links away and building it anew puts others around the same pieces, so a balanced tree has
the leaves of the tree, records the same and shows the same. Subtrees that are not fresh are found in it as they were.
-/
namespace Reparse

open Subtree

/-- Repetitions are hidden, and their links are made by `R -> R R` without fields. -/
structure Language.PlainRepeats (l : Language) : Prop where
  hidden : ∀ s, (l.table.info? s).any (·.repetition) = true → l.isVisible s = false
  doubling : ∀ s id, l.table.binaryRepeat s = some id → id ≠ noProduction ∧ l.table.production id = ⟨s, 2, []⟩

theorem Language.plainRepeats_of_table {l : Language} (hCount : l.table.productions.size < 65535)
    (hSize : l.table.symbols.size < 65535)
    (hSymbols : ∀ info ∈ l.table.symbols, info.repetition = true → info.visible = false)
    (hRows : ∀ p ∈ l.table.productions, (l.table.info? p.lhs).any (·.repetition) = true → p.childCount = 2 → p.fields = []) :
    l.PlainRepeats := by
  constructor
  · intro s hRepetition
    cases hInfo : l.table.info? s with
    | none =>
      rw [hInfo] at hRepetition
      cases hRepetition
    | some info =>
      rw [hInfo, Option.any_some] at hRepetition
      have hError : s.isError = false := by
        by_contra hIs
        obtain rfl : s = .error := by simpa [Symbol.isError] using hIs
        have hIndex : l.table.symbols.size ≤ Symbol.error.index := Nat.le_of_lt hSize
        rw [Table.info?, Array.getElem?_eq_none hIndex] at hInfo
        cases hInfo
      rw [Language.isVisible, hError, hInfo, Option.any_some, Bool.false_or]
      exact hSymbols info (Array.mem_of_getElem? hInfo) hRepetition
  · intro s id hRepeat
    obtain ⟨hRepetition, hSome, ⟨lhs, childCount, fields⟩, hRow, rfl, rfl⟩ := Table.binaryRepeat_eq_some hCount hRepeat
    refine ⟨hSome, ?_⟩
    obtain rfl : fields = [] := hRows _ (Array.mem_of_getElem? hRow) hRepetition rfl
    rw [Table.production, hRow, Option.getD_some]

theorem Language.BuiltFrom.plainRepeats {l : Language} {g : Grammar} (h : l.BuiltFrom g) (hApart : g.RepeatsApart)
    (hCount : l.table.productions.size < 65535) : l.PlainRepeats := by
  obtain ⟨w, states, hBuilt⟩ := h.built
  apply Language.plainRepeats_of_table hCount hBuilt.valid.symbols_lt
  · intro info hInfo hRepetition
    have hSymbols : l.table.symbols = (g.symbolInfos g.vocabulary).toArray := by rw [hBuilt.table]; exact hBuilt.lowers.symbols
    rw [hSymbols, List.mem_toArray, Grammar.symbolInfos, List.mem_append, List.mem_append, List.mem_cons, List.mem_map,
      List.mem_map, List.mem_map] at hInfo
    rcases hInfo with ((rfl | ⟨name, _, rfl⟩) | ⟨text, _, rfl⟩) | ⟨name, _, rfl⟩
    · rfl
    · cases hRepetition
    · cases hRepetition
    · have hIs : g.isRepetition name = true := hRepetition
      rw [Grammar.namedInfo, hIs]
      exact Bool.and_false _
  · intro row hRow hRepetition _
    obtain ⟨i, hi⟩ := Array.mem_iff_getElem?.mp hRow
    rw [hBuilt.getElem?_productions] at hi
    obtain ⟨p, hp, rfl⟩ := Option.map_eq_some_iff.mp hi
    exact (hBuilt.rhs_of_repetition hApart (Array.mem_of_getElem? hp) hRepetition).1

namespace Subtree

variable {l : Language} {info : NodeInfo} {children pieces : List Subtree} {s s' : Subtree}

/-- A node by the production of the links of its symbol is a link. -/
theorem Recorded.linking (h : Recorded l info children) (hPlain : l.PlainRepeats)
    (hRepeat : l.table.binaryRepeat info.symbol = some info.production) : Linking l info children := by
  have hNonempty := h.linked hRepeat
  have hHidden : l.isVisible info.symbol = false := by
    apply hPlain.hidden
    rw [Table.binaryRepeat] at hRepeat
    split at hRepeat
    next hRepetition => exact hRepetition
    next => cases hRepeat
  constructor
  · exact h
  · exact hHidden
  · intro i
    obtain ⟨hSome, hDoubling⟩ := hPlain.doubling _ _ hRepeat
    rw [Language.fieldOfChild, if_neg hSome]
    rw [Table.production] at hDoubling
    cases hRow : l.table.productions[info.production.toNat]? with
    | none => rfl
    | some p =>
      rw [hRow, Option.getD_some] at hDoubling
      rw [Option.bind_some, hDoubling]
      rfl
  · -- With children it would be an error, which is visible.
    by_contra hExtra
    rcases h.extra (by simpa using hExtra) with hNil | hError
    · exact hNonempty hNil
    · rw [hError] at hHidden
      cases hHidden
  · exact hNonempty

/-- The top of a chain built anew holds its pieces in a row. -/
theorem build_redrawn (hPlain : l.PlainRepeats) {symbol : Symbol} {production : ProductionId}
    (hRepeat : l.table.binaryRepeat symbol = some production) {c : Chain} (weights : Array Nat) {lo hi : Nat}
    {leading trailing : List Subtree} (hLo : lo < hi) (hOne : lo + 1 = hi → leading = [] ∧ trailing = [])
    (hNodes : ∀ s ∈ leading ++ c.span lo (hi - lo) ++ trailing, s.All (Recorded l)) (id : NodeId) :
    let top := (c.build ⟨l, symbol, production⟩ weights lo hi leading trailing id).1
    Redrawn l Holds (leading ++ c.span lo (hi - lo) ++ trailing) [top] ∧
      (lo + 1 < hi → top.symbol = symbol ∧ Linking l top.info top.children ∧
        Redrawn l Holds (leading ++ c.span lo (hi - lo) ++ trailing) top.children) := by
  generalize hMaker : (⟨l, symbol, production⟩ : Chain.Maker) = m
  have hRefl (row : List Subtree) (h : ∀ s ∈ row, s.All (Recorded l)) : Redrawn l Holds row row :=
    .refl (fun _ _ _ hPlace => hPlace) h
  fun_induction Chain.build m c weights lo hi leading trailing id with
  | case1 lo hi leading trailing id first hMore split hBounds left id' hLeft right id'' hRight between children
      ihLeft ihRight =>
    subst hMaker
    obtain ⟨hSplit, hBelow⟩ : lo < split ∧ split < hi := ⟨hBounds.1, hBounds.2⟩
    have hOld : leading ++ c.span lo (hi - lo) ++ trailing =
        leading ++ c.span lo (split - lo) ++ c.gap (split - 1) ++ c.span split (hi - split) ++ trailing := by
      simp [c.span_split hSplit hBelow]
    rw [hOld] at hNodes ⊢
    simp only [List.mem_append] at hNodes
    obtain ⟨hFirst, _⟩ := ihLeft hSplit (by simp) fun s hs => hNodes s (by simp at hs; simp [hs])
    obtain ⟨hSecond, _⟩ := ihRight hBelow (by simp) fun s hs => hNodes s (by simp at hs; simp [hs])
    simp only [hLeft, hRight, List.nil_append, List.append_nil] at hFirst hSecond
    -- The pieces in order, those between the parts being left as they are.
    have hLeading := hRefl leading fun s hs => hNodes s (by simp [hs])
    have hBetween := hRefl between fun s hs => hNodes s (.inl (.inl (.inr hs)))
    have hTrailing := hRefl trailing fun s hs => hNodes s (by simp [hs])
    have hRow : Redrawn l Holds _ children := (((hLeading.append hFirst).append hBetween).append hSecond).append hTrailing
    have hLinking : Linking l (ofChildren l id'' symbol children production first.info.state).info children :=
      (recorded_ofChildren fun _ => by simp [children]).linking hPlain hRepeat
    exact ⟨hRow.link hLinking, fun _ => ⟨rfl, hLinking, hRow⟩⟩
  | case2 lo hi leading trailing id first hDone =>
    obtain ⟨rfl, rfl⟩ := hOne (by omega)
    rw [c.span_one hLo hDone, List.nil_append, List.append_nil] at hNodes ⊢
    exact ⟨hRefl _ hNodes, fun hMore => absurd hMore hDone⟩

/-! ## Balancing -/

/-- A subtree that can stand in the place of another one. -/
structure Replaces (b : Balancing) (old new : Subtree) : Prop
    extends Redrawn b.language (Reused b.fresh) [old] [new] where
  symbol : new.symbol = old.symbol
  extra : new.isExtra = old.isExtra
  missing : new.isMissing = old.isMissing
  lookahead : old.lookahead ≤ new.lookahead

section Balancing

variable {b : Balancing} {new : List Subtree}

theorem Replaces.refl (h : s.All (Recorded b.language)) : Replaces b s s where
  toRedrawn := .refl (fun _ _ _ hPlace => hPlace.holds) (by simpa using h)
  symbol := rfl
  extra := rfl
  missing := rfl
  lookahead := Nat.le_refl _

theorem redrawn_of_replaces (h : List.Forall₂ (Replaces b) children new) :
    Redrawn b.language (Reused b.fresh) children new := by
  induction h with
  | nil => exact .refl (fun _ _ _ hPlace => hPlace.holds) (by simp)
  | cons hHere _ ih => exact hHere.toRedrawn.append ih

theorem rebuildChain_replaces (hPlain : b.language.PlainRepeats) (h : (node info children).All (Recorded b.language))
    (hLink : b.isLink info = true) (hPieces : Redrawn b.language (Reused b.fresh) children pieces) (id : NodeId) :
    Replaces b (node info children) (rebuildChain b.language info children pieces id).1 := by
  rw [Balancing.isLink, Bool.and_eq_true, beq_iff_eq] at hLink
  obtain ⟨hFresh, hRepeat⟩ := hLink
  have hLinking := h.here.linking hPlain hRepeat
  obtain ⟨_, hWhole⟩ := Chain.ofPieces_fits pieces
  have hNodes := hPieces.nodes
  rw [← hWhole, Chain.pieces, ← Nat.sub_zero (Chain.ofPieces pieces).items.size] at hNodes
  rw [rebuildChain]
  dsimp only
  split
  next => exact .refl h
  next hItems =>
    obtain ⟨_, hTop⟩ := build_redrawn hPlain hRepeat (Chain.weights (Chain.ofPieces pieces).items.toList)
      (by omega) (by omega) hNodes id
    obtain ⟨hSymbol, hNew, hRow⟩ := hTop (by omega)
    rw [Nat.sub_zero, ← Chain.pieces, hWhole] at hRow
    have hExtended := hNew.withLookahead info.lookahead
    exact {
      toRedrawn := .unlink hLinking hFresh ((hPieces.trans hRow).link hExtended)
      symbol := hSymbol
      extra := hNew.structural.trans hLinking.structural.symm
      missing := (hNew.present hNew.nonempty).trans (hLinking.present hLinking.nonempty).symm
      lookahead := Nat.le_max_right _ _ }

theorem rebuild_replaces (h : Recorded b.language info children) (hFresh : b.fresh info.id = true) (hNonempty : children ≠ [])
    (hNew : List.Forall₂ (Replaces b) children new) (id : NodeId) :
    Replaces b (node info children) (rebuild b.language info id new) := by
  have hRow := redrawn_of_replaces hNew
  have hSome : new ≠ [] := by
    rintro rfl
    exact hNonempty (List.forall₂_nil_right_iff.mp hNew)
  have hExtra : info.extra = true → new = [] ∨ info.symbol = .error := fun hIs =>
    .inr ((h.extra hIs).resolve_left hNonempty)
  have hRecorded : Recorded b.language (rebuild b.language info id new).info new := by
    have hNode : Recorded b.language (ofChildren b.language id info.symbol new info.production info.state).info new :=
      recorded_ofChildren fun _ => hSome
    exact hNode.congr rfl hExtra
  have hLooks := looksAlike_node h hRecorded hNonempty hSome rfl rfl rfl hRow.toLooksAlike
    (hNew.flip.imp fun _ _ hEach => ⟨hEach.extra, hEach.toLooksAlike⟩)
  exact {
    toLooksAlike := hLooks
    nodes := fun s hs => by
      rw [List.mem_singleton.mp hs]
      exact .node hRecorded hRow.nodes
    holds := fun start place hPlace => among_singleton.mpr <|
      (hRow.holds start place ((among_singleton.mp hPlace).among h.toTiled hFresh)).holds hRecorded.toTiled
    symbol := rfl
    extra := rfl
    missing := (hRecorded.present hSome).trans (h.present hNonempty).symm
    lookahead := Nat.le_max_right _ _ }

mutual

theorem balanced_replaces (hPlain : b.language.PlainRepeats) (id : NodeId) : ∀ s : Subtree, s.All (Recorded b.language) →
    Replaces b s (balanced b id s).1
  | .node info children, h => by
    rw [balanced]
    split
    · exact .refl h
    next hEnters =>
      simp only [Bool.or_eq_true, Bool.not_eq_true', not_or, Bool.not_eq_false, List.isEmpty_iff] at hEnters
      obtain ⟨hNonempty, hFresh⟩ := hEnters
      split
      next hLink =>
        exact rebuildChain_replaces hPlain h hLink (chainPieces_redrawn hPlain info.symbol id children h.child) _
      next =>
        dsimp only
        split
        · exact .refl h
        · exact rebuild_replaces h.here hFresh hNonempty (balancedAll_replaces hPlain id children h.child) _

theorem balancedAll_replaces (hPlain : b.language.PlainRepeats) (id : NodeId) : ∀ children : List Subtree,
    (∀ c ∈ children, c.All (Recorded b.language)) → List.Forall₂ (Replaces b) children (balancedAll b id children).1
  | [], _ => by
    rw [balancedAll]
    exact .nil
  | c :: rest, h => by
    rw [balancedAll]
    exact .cons (balanced_replaces hPlain id c (h c List.mem_cons_self))
      (balancedAll_replaces hPlain _ rest fun c hc => h c (List.mem_cons_of_mem _ hc))

theorem chainPieces_redrawn (hPlain : b.language.PlainRepeats) (symbol : Symbol) (id : NodeId) : ∀ children : List Subtree,
    (∀ c ∈ children, c.All (Recorded b.language)) →
      Redrawn b.language (Reused b.fresh) children (chainPieces b symbol id children).1
  | [], h => by
    rw [chainPieces]
    exact .refl (fun _ _ _ hPlace => hPlace.holds) h
  | .node info children :: rest, h => by
    have hNode := h _ List.mem_cons_self
    have hRest (id : NodeId) := chainPieces_redrawn hPlain symbol id rest fun c hc => h c (List.mem_cons_of_mem _ hc)
    rw [chainPieces]
    dsimp only
    split
    next hLink =>
      have hFlat := chainPieces_redrawn hPlain symbol id children hNode.child
      have hIsLink := hLink.2
      rw [Balancing.isLink, Bool.and_eq_true, beq_iff_eq] at hIsLink
      exact (Redrawn.unlink (hNode.here.linking hPlain hIsLink.2) hIsLink.1 hFlat).append (hRest _)
    next => exact (balanced_replaces hPlain id _ hNode).toRedrawn.append (hRest _)

end

end Balancing

/-! ## Trees -/

/-- A subtree that was made in one of the ways there are, or part of one. A link of a repetition is made over children. -/
inductive Assembled (l : Language) : Subtree → Prop
  | token (id : NodeId) (symbol : Symbol) (size lookahead : Nat) (state : StateId) (mode : LexModeId)
    (scannerState : Option (List UInt8)) : Assembled l (leaf l id symbol size lookahead state mode scannerState)
  | skipped (id : NodeId) (size lookahead : Nat) (state : StateId) (mode : LexModeId) :
    Assembled l (errorLeaf id size lookahead state mode)
  | missing (id : NodeId) (symbol : Symbol) (state : StateId) (mode : LexModeId) :
    Assembled l (missingLeaf id symbol state mode)
  | shifted {s : Subtree} (id : NodeId) (state : StateId) : Assembled l s → s.isLeaf = true →
    Assembled l (s.update fun info => { info with id, state })
  | reduced {children : List Subtree} (id : NodeId) (symbol : Symbol) (production : ProductionId) (state : StateId) :
    (∀ c ∈ children, Assembled l c) → (l.table.binaryRepeat symbol = some production → children ≠ []) →
      Assembled l (ofChildren l id symbol children production state)
  | error {children : List Subtree} (id : NodeId) (state : StateId) : (∀ c ∈ children, Assembled l c) →
    Assembled l (errorNode l id children state)
  | extended {s : Subtree} (bytes : Nat) : Assembled l s → Assembled l (s.withLookahead bytes)
  | root {s : Subtree} : Assembled l s → Assembled l (s.update fun info => { info with extra := false })
  | balanced {s : Subtree} {b : Balancing} (id : NodeId) : Assembled l s → b.language = l →
    Assembled l (balanced b id s).1
  | edited {s : Subtree} (e : Edit) (id : NodeId) : Assembled l s → Assembled l (edited (e.clamped s.size) id s).1
  | part {s c : Subtree} : Assembled l s → c ∈ s.children → Assembled l c

theorem Assembled.recorded (hPlain : l.PlainRepeats) (h : Assembled l s) : s.All (Recorded l) := by
  have hUnlinked (symbol : Symbol) : l.table.binaryRepeat symbol ≠ some noProduction := fun hRepeat =>
    (hPlain.doubling _ _ hRepeat).1 rfl
  induction h with
  | token id symbol => exact recorded_leaf rfl rfl (hUnlinked symbol)
  | skipped => exact recorded_leaf rfl rfl (hUnlinked .error)
  | missing id symbol => exact recorded_leaf rfl rfl (hUnlinked symbol)
  | shifted id state _ _ ih => exact ih.update (ih.here.congr rfl ih.here.extra)
  | reduced id symbol production state _ hLinked ih => exact .node (recorded_ofChildren hLinked) ih
  | @error children id state _ ih =>
    have hNode : Recorded l (ofChildren l id .error children noProduction state).info children :=
      recorded_ofChildren fun hRepeat => absurd hRepeat (hUnlinked .error)
    exact .node (hNode.congr rfl fun _ => .inr rfl) ih
  | extended bytes _ ih => exact ih.update (ih.here.congr rfl ih.here.extra)
  | root _ ih => exact ih.update (ih.here.congr rfl (by simp))
  | balanced id _ hLanguage ih =>
    subst hLanguage
    exact (balanced_replaces hPlain id _ ih).nodes _ List.mem_cons_self
  | edited e id _ ih => exact all_recorded_edited ih (e.ordered_clamped _) id
  | part _ hc ih => exact ih.child _ hc

/-- What balancing keeps of a tree. -/
structure Unaltered (b : Balancing) (old new : Subtree) : Prop where
  leaves : new.leaves = old.leaves
  size : new.size = old.size
  hasError : new.hasError = old.hasError
  firstSymbol : new.info.firstSymbol = old.info.firstSymbol
  firstMode : new.info.firstMode = old.info.firstMode
  scannerState : new.info.scannerState = old.info.scannerState
  lookahead : old.lookahead ≤ new.lookahead
  preorder : ∀ status, (Tree.rootNode ⟨new, b.language, status⟩).preorder 0 none =
    (Tree.rootNode ⟨old, b.language, status⟩).preorder 0 none
  reused : ∀ place, Reused b.fresh 0 old place → new.Holds 0 place

/-- A hidden root shows itself and what a child in its place would show. -/
theorem sights_of_hidden (h : Recorded l s.info s.children) (hHidden : l.isVisible s.symbol = false) (depth start : Nat)
    (field : Option FieldId) :
    s.sights l depth start field = s.sight l depth start field :: s.shows l (depth + 1) start none := by
  obtain ⟨info, children⟩ := s
  have hSymbol : l.isVisible info.symbol = false := hHidden
  have hShown : children ≠ [] → info.visibleChildren = totalOf (shownChildren l) children := h.shown
  rw [sights, shows_of_hidden hSymbol hShown]

theorem Replaces.sights_eq {b : Balancing} (h : Replaces b s s') (hs : s.All (Recorded b.language)) (depth start : Nat) :
    s'.sights b.language depth start none = s.sights b.language depth start none := by
  have hShows (depth : Nat) : s'.shows b.language depth start none = s.shows b.language depth start none := by
    have hSpread := h.sights depth start none
    rwa [spread_singleton, spread_singleton, ite_self, ite_self] at hSpread
  cases hVisible : b.language.isVisible s.symbol with
  | true =>
    have hShown := hShows depth
    rwa [shows, shows, h.symbol, if_pos hVisible, if_pos hVisible] at hShown
  | false =>
    rw [sights_of_hidden hs.here hVisible, sights_of_hidden (h.nodes s' List.mem_cons_self).here (h.symbol ▸ hVisible),
      hShows, sight_congr s s' h.symbol h.digest h.extra h.missing]

theorem Replaces.unaltered {b : Balancing} (h : Replaces b s s') (hs : s.All (Recorded b.language)) : Unaltered b s s' := by
  have hs' := h.nodes s' List.mem_cons_self
  have hDigest : s'.info.digest = s.info.digest := by
    rw [← digestOf_singleton hs'.here.scanned, ← digestOf_singleton hs.here.scanned, h.digest]
  have hFirst := Option.some.inj (congrArg Digest.first hDigest)
  constructor
  · rw [← leavesAmong_singleton, h.leaves, leavesAmong_singleton]
  · exact congrArg Digest.size hDigest
  · exact congrArg Digest.hasError hDigest
  · exact congrArg Prod.fst hFirst
  · exact congrArg Prod.snd hFirst
  · exact congrArg Digest.scannerState hDigest
  · exact h.lookahead
  · exact fun status => h.sights_eq hs 0 0
  · exact fun place hPlace => among_singleton.mp (h.holds 0 place (among_singleton.mpr hPlace))

/-- Whatever is balanced of a tree, it looks as before, and what is not fresh is found in it untouched. -/
theorem balanced_unaltered {b : Balancing} (hPlain : b.language.PlainRepeats) (h : Assembled b.language s) (id : NodeId) :
    Unaltered b s (balanced b id s).1 :=
  (balanced_replaces hPlain id s (h.recorded hPlain)).unaltered (h.recorded hPlain)

end Subtree

/-- Any number of `a`, with blanks around them. -/
def Table.listed : Table where
  name := "listed"
  symbols := #[.endOfInput, ⟨"blank", true, true, true, false⟩, ⟨"a", true, true, false, false⟩,
    ⟨"items", false, true, false, true⟩]
  tokenCount := 3
  fields := #[]
  productions := #[⟨⟨3⟩, 2, []⟩, ⟨⟨3⟩, 1, []⟩]
  stateCount := 4
  actions := #[none, none, some (.shift 1), some (.reduce 1), none, some (.reduce 1), some .accept, none,
    some (.shift 1), some (.reduce 0), none, some (.reduce 0)]
  gotos := #[some 2, none, some 3, some 3]
  lexNodes := #[.accept ⟨1⟩, .chars ⟨#[(' ', ' ')], false⟩ 0, .accept ⟨2⟩, .chars ⟨#[('a', 'a')], false⟩ 2]
  tokenLex := #[.none, ⟨some 1, false, false⟩, ⟨some 3, false, false⟩]
  extras := [⟨1⟩]
  externals := []
  start := ⟨3⟩
  word := none

def Language.listed : Language := .ofValid 0 .listed Blob.formatVersion

namespace Subtree

/-- Four of them in a chain that leans to the left. -/
def listed : Subtree :=
  let item (id : NodeId) : Subtree := ofChildren .listed (id + 1) ⟨3⟩ [leaf .listed id ⟨2⟩ 1 0 0 0 none] 1 0
  let link (id : NodeId) (children : List Subtree) : Subtree := ofChildren .listed id ⟨3⟩ children 0 0
  link 12 [link 11 [link 10 [item 0, item 2], leaf .listed 4 ⟨1⟩ 1 0 3 0 none, item 5], item 7]

/-- The first one was there before. -/
theorem listed_unaltered : Language.listed.PlainRepeats ∧ Assembled .listed listed ∧
    Unaltered ⟨.listed, fun id => 2 ≤ id⟩ listed (balanced ⟨.listed, fun id => 2 ≤ id⟩ 20 listed).1 := by
  have hPlain : Language.listed.PlainRepeats :=
    Language.plainRepeats_of_table (by decide) (by decide) (by decide) (by decide)
  have hItem (id : NodeId) : Assembled .listed (ofChildren .listed (id + 1) ⟨3⟩ [leaf .listed id ⟨2⟩ 1 0 0 0 none] 1 0) := by
    refine .reduced _ _ _ _ (fun c hc => ?_) (by simp)
    rw [List.mem_singleton.mp hc]
    exact .token ..
  have hPair {a b : Subtree} (ha : Assembled .listed a) (hb : Assembled .listed b) (id : NodeId) :
      Assembled .listed (ofChildren .listed id ⟨3⟩ [a, b] 0 0) := by
    refine .reduced _ _ _ _ (fun c hc => ?_) (by simp)
    rcases List.mem_pair.mp hc with rfl | rfl
    · exact ha
    · exact hb
  have hAssembled : Assembled .listed listed := by
    apply hPair _ (hItem 7)
    refine .reduced _ _ _ _ ?_ (by simp)
    simp only [List.mem_cons, List.not_mem_nil, or_false]
    rintro c (rfl | rfl | rfl)
    · exact hPair (hItem 0) (hItem 2) 10
    · exact .token ..
    · exact hItem 5
  exact ⟨hPlain, hAssembled, balanced_unaltered hPlain hAssembled 20⟩

example : (balanced ⟨.listed, fun id => 2 ≤ id⟩ 20 listed).1.levels < listed.levels := by cbv

end Subtree
end Reparse
