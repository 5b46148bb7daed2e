import Reparse.Proofs.Parse.Nodes
import Reparse.Proofs.Tree.Recorded
/-!
# What balancing keeps of any node

A node of a parse tells of its children whether one has an error, and what the first leaf is. Chains are built anew over
the same pieces, so this is the same in a balanced tree, whatever else its nodes record.
-/
namespace Reparse
namespace Subtree

variable {l : Language} {info : NodeInfo} {old mid new : List Subtree} {s : Subtree}

/-- A node over children tells their errors and their first leaf. -/
def Headed (info : NodeInfo) (children : List Subtree) : Prop :=
  children ≠ [] → info.hasError = (info.symbol.isError || (digestOf children).hasError) ∧
    some (info.firstSymbol, info.firstMode) = (digestOf children).first

theorem headed_ofChildren (id : NodeId) (symbol : Symbol) (children : List Subtree) (production : ProductionId)
    (state : StateId) : Headed (ofChildren l id symbol children production state).info children := by
  intro hNonempty
  obtain ⟨c, rest, rfl⟩ := List.exists_cons_of_ne_nil hNonempty
  exact ⟨rfl, rfl⟩

theorem lasting_headed : Lasting l Headed where
  token _ _ _ _ _ _ _ := fun h => absurd rfl h
  skipped _ _ _ _ _ := fun h => absurd rfl h
  absent _ _ _ _ := fun h => absurd rfl h
  parent id symbol children production state _ := headed_ofChildren id symbol children production state
  changed _ _ _ _ _ h := h
  extra _ _ _ _ _ _ h := h

/-- Links also have children. -/
structure Told (b : Balancing) (info : NodeInfo) (children : List Subtree) : Prop where
  headed : Headed info children
  linked : b.isLink info = true → children ≠ []

/-- The two rows have errors or not, and begin with the same leaf. -/
structure Fronts (old new : List Subtree) : Prop where
  hasError : (digestOf new).hasError = (digestOf old).hasError
  first : (digestOf new).first = (digestOf old).first

namespace Fronts

theorem refl (old : List Subtree) : Fronts old old := ⟨rfl, rfl⟩

theorem trans (h : Fronts old mid) (h' : Fronts mid new) : Fronts old new :=
  ⟨h'.hasError.trans h.hasError, h'.first.trans h.first⟩

theorem append {old' new' : List Subtree} (h : Fronts old new) (h' : Fronts old' new') :
    Fronts (old ++ old') (new ++ new') := by
  constructor
  · rw [digestOf_append, digestOf_append, Digest.append, Digest.append, h.hasError, h'.hasError]
  · rw [digestOf_append, digestOf_append, Digest.append, Digest.append, h.first, h'.first]

theorem singleton (s : Subtree) : (digestOf [s]).hasError = s.hasError ∧
    (digestOf [s]).first = some (s.info.firstSymbol, s.info.firstMode) := by
  simp [digestOf]

theorem of_headed (h : Headed s.info old) (hNonempty : old ≠ []) (hSymbol : s.symbol.isError = false) : Fronts old [s] := by
  obtain ⟨hError, hFirst⟩ := h hNonempty
  rw [show s.info.symbol.isError = false from hSymbol, Bool.false_or] at hError
  exact ⟨(singleton s).1.trans hError, (singleton s).2.trans hFirst⟩

theorem symm (h : Fronts old new) : Fronts new old := ⟨h.hasError.symm, h.first.symm⟩

theorem withLookahead (h : Fronts old [s]) (bytes : Nat) : Fronts old [s.withLookahead bytes] := ⟨h.hasError, h.first⟩

theorem nonempty (h : Fronts old new) (hOld : old ≠ []) : new ≠ [] := by
  rintro rfl
  obtain ⟨c, rest, rfl⟩ := List.exists_cons_of_ne_nil hOld
  cases h.first

theorem nodes {s' : Subtree} (h : Fronts old new) (hOld : old ≠ []) (hs : Headed s.info old) (hs' : Headed s'.info new)
    (hSymbol : s'.symbol = s.symbol) : Fronts [s] [s'] := by
  obtain ⟨hError, hFirst⟩ := hs hOld
  obtain ⟨hError', hFirst'⟩ := hs' (h.nonempty hOld)
  constructor
  · rw [(singleton s).1, (singleton s').1, Subtree.hasError, Subtree.hasError, hError, hError', h.hasError,
      show s'.info.symbol = s.info.symbol from hSymbol]
  · rw [(singleton s).2, (singleton s').2, hFirst, hFirst', h.first]

end Fronts

/-! ## Balancing -/

theorem build_fronts {c : Chain} {m : Chain.Maker} (hSymbol : m.symbol.isError = false) (weights : Array Nat) {lo hi : Nat}
    (leading trailing : List Subtree) (hLo : lo < hi) (hOne : lo + 1 = hi → leading = [] ∧ trailing = []) (id : NodeId) :
    Fronts (leading ++ c.span lo (hi - lo) ++ trailing) [(c.build m weights lo hi leading trailing id).1] := by
  fun_induction Chain.build m c weights lo hi leading trailing id with
  | case1 lo hi leading trailing id first _ split hBounds left id' hLeft right id'' hRight between children ihLeft ihRight =>
    obtain ⟨hSplit, hBelow⟩ : lo < split ∧ split < hi := ⟨hBounds.1, hBounds.2⟩
    have hOld : leading ++ c.span lo (hi - lo) ++ trailing =
        leading ++ c.span lo (split - lo) ++ c.gap (split - 1) ++ c.span split (hi - split) ++ trailing := by
      simp [c.span_split hSplit hBelow]
    have hFirst := ihLeft hSplit fun _ => ⟨rfl, rfl⟩
    have hSecond := ihRight hBelow fun _ => ⟨rfl, rfl⟩
    simp only [hLeft, hRight, List.nil_append, List.append_nil] at hFirst hSecond
    have hRow : Fronts (leading ++ c.span lo (hi - lo) ++ trailing) children := by
      rw [hOld]
      exact ((((Fronts.refl leading).append hFirst).append (.refl (c.gap (split - 1)))).append hSecond).append (.refl trailing)
    exact hRow.trans (.of_headed (headed_ofChildren id'' m.symbol children m.production first.info.state)
      (by simp [children]) hSymbol)
  | case2 lo hi leading trailing id first hDone =>
    obtain ⟨rfl, rfl⟩ := hOne (by omega)
    rw [c.span_one hLo hDone, List.nil_append, List.append_nil]
    exact .refl _

theorem rebuildChain_fronts {pieces children : List Subtree} (hSymbol : info.symbol.isError = false)
    (hPieces : Fronts [node info children] pieces) (id : NodeId) :
    Fronts [node info children] [(rebuildChain l info children pieces id).1] := by
  obtain ⟨_, hWhole⟩ := Chain.ofPieces_fits pieces
  rw [Chain.pieces] at hWhole
  rw [rebuildChain]
  dsimp only
  split
  next => exact .refl _
  next hItems =>
    have hMaker : (Chain.Maker.mk l info.symbol info.production).symbol.isError = false := hSymbol
    have hSome : 0 < (Chain.ofPieces pieces).items.size := by omega
    have hTop := build_fronts (c := Chain.ofPieces pieces) hMaker (Chain.weights (Chain.ofPieces pieces).items.toList)
      (Chain.ofPieces pieces).leading (Chain.ofPieces pieces).trailing hSome (fun hOne => absurd hOne (by omega)) id
    rw [Nat.sub_zero, hWhole] at hTop
    exact hPieces.trans (hTop.withLookahead _)

section Balancing

variable {b : Balancing}

theorem isError_of_isLink (hRepeats : RepeatsRules b.language) (hLink : b.isLink info = true) : info.symbol.isError = false := by
  by_contra hError
  rw [Balancing.isLink, Bool.and_eq_true, beq_iff_eq, hRepeats] at hLink
  · cases hLink.2
  · rw [Language.isTerminal, Bool.or_eq_true]
    exact .inl (by simpa using hError)

theorem fronts_of_isLink (hRepeats : RepeatsRules b.language) {children : List Subtree} (h : Told b info children)
    (hLink : b.isLink info = true) :
    Fronts [node info children] children :=
  (Fronts.of_headed (s := node info children) h.headed (h.linked hLink) (isError_of_isLink hRepeats hLink)).symm

mutual

theorem balanced_fronts (hRepeats : RepeatsRules b.language) (id : NodeId) :
    ∀ s : Subtree, s.All (Told b) → Fronts [s] [(balanced b id s).1]
  | .node info children, h => by
    rw [balanced]
    split
    · exact .refl _
    next hEnters =>
      simp only [Bool.or_eq_true, Bool.not_eq_true', not_or, Bool.not_eq_false, List.isEmpty_iff] at hEnters
      obtain ⟨hNonempty, _⟩ := hEnters
      split
      next hLink =>
        exact rebuildChain_fronts (isError_of_isLink hRepeats hLink)
          ((fronts_of_isLink hRepeats h.here hLink).trans (chainPieces_fronts hRepeats info.symbol id children h.child)) _
      next =>
        dsimp only
        split
        · exact .refl _
        · exact (balancedAll_fronts hRepeats id children h.child).nodes hNonempty h.here.headed
            (headed_ofChildren (l := b.language) 0 info.symbol _ info.production info.state) rfl

theorem balancedAll_fronts (hRepeats : RepeatsRules b.language) (id : NodeId) : ∀ children : List Subtree,
    (∀ c ∈ children, c.All (Told b)) → Fronts children (balancedAll b id children).1
  | [], _ => by
    rw [balancedAll]
    exact .refl _
  | c :: rest, h => by
    rw [balancedAll]
    obtain ⟨hFirst, hRest⟩ := List.forall_mem_cons.mp h
    exact (balanced_fronts hRepeats id c hFirst).append (balancedAll_fronts hRepeats _ rest hRest)

theorem chainPieces_fronts (hRepeats : RepeatsRules b.language) (symbol : Symbol) (id : NodeId) :
    ∀ children : List Subtree, (∀ c ∈ children, c.All (Told b)) → Fronts children (chainPieces b symbol id children).1
  | [], _ => by
    rw [chainPieces]
    exact .refl _
  | .node info children :: rest, h => by
    obtain ⟨hFirst, hRest⟩ := List.forall_mem_cons.mp h
    rw [chainPieces]
    dsimp only
    split
    next hLink =>
      have hFlat := chainPieces_fronts hRepeats symbol id children hFirst.child
      exact ((fronts_of_isLink hRepeats hFirst.here hLink.2).trans hFlat).append (chainPieces_fronts hRepeats symbol _ rest hRest)
    next => exact (balanced_fronts hRepeats id _ hFirst).append (chainPieces_fronts hRepeats symbol _ rest hRest)

end

end Balancing

end Subtree
end Reparse
