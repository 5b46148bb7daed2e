import Reparse.Proofs.Parse.Apart
import Reparse.Proofs.Tree.Shallow
/-!
# What the links of a repetition are made by

A table does not record which production is the `R -> R R` of a repetition: the first production of `R` with two children is
taken for it. The productions of rules come before those of repetitions, so a rule of `R` with two items is taken instead,
and its nodes are then flattened and built anew as if they were links. Without such a rule it is `R -> R R`.
-/
namespace Reparse

open LoweredGrammar

/-- The rule `R -> R R` of a repetition. -/
def LoweredProduction.doubling (s : Symbol) : LoweredProduction := ⟨s, [s, s], [], 0, .left, true⟩

/-- A production of the symbol with two children, as far as a table counts them. -/
def LoweredProduction.isPair (s : Symbol) (p : LoweredProduction) : Bool := p.lhs == s && p.rhs.length.toUInt16 == 2

theorem LoweredProduction.isPair_iff {s : Symbol} {p : LoweredProduction} :
    p.isPair s = true ↔ p.lhs = s ∧ p.rhs.length.toUInt16 = 2 := by
  rw [isPair, Bool.and_eq_true, beq_iff_eq, beq_iff_eq]

namespace Grammar

/-- The first rule of a name that has two items, as far as a table counts them. -/
def pairRule? (g : Grammar) (name : String) : Option Rule :=
  g.rules.find? fun rule => rule.lhs == name && rule.items.length.toUInt16 == 2

/-- The production is that of the first rule of the name that has two items, or `R -> R R` if there is no such rule. -/
def MakesLinks (g : Grammar) (name : String) (s : Symbol) (p : LoweredProduction) : Prop :=
  match g.pairRule? name with
  | some rule => g.vocabulary.lowerRule rule = .ok p
  | none => p = .doubling s

theorem forall₂_find? {α β : Type} {R : α → β → Prop} {P : α → Bool} {Q : β → Bool} {xs : List α} {ys : List β}
    (h : List.Forall₂ R xs ys) (hSame : ∀ x y, R x y → P x = Q y) : Option.Rel R (xs.find? P) (ys.find? Q) := by
  induction h with
  | nil => exact .none
  | @cons x y xs ys hHere _ ih =>
    rw [List.find?_cons, List.find?_cons, hSame x y hHere]
    cases Q y with
    | true => exact .some hHere
    | false => exact ih

/-- Of the productions of repetitions only `R -> R R` has two children. -/
theorem find?_repeats {g : Grammar} {r : Repetition} {s : Symbol} {repeats : List (List LoweredProduction)}
    (hRepeats : List.Forall₂ (fun r ps => g.vocabulary.lowerRepeat r = .ok ps) g.repeats repeats) (hr : r ∈ g.repeats)
    (hs : g.vocabulary.resolve r.lhs = .ok s) : repeats.flatten.find? (·.isPair s) = some (.doubling s) := by
  obtain ⟨ps, hps, hLower⟩ := forall₂_mem_left hRepeats hr
  obtain ⟨lhs, item, hLhs, _, rfl⟩ := lowerRepeat_eq_ok hLower
  obtain rfl := Except.ok.inj (hs.symm.trans hLhs)
  have hPair : (LoweredProduction.doubling s).isPair s = true := LoweredProduction.isPair_iff.mpr ⟨rfl, rfl⟩
  obtain ⟨p, hp⟩ := Option.isSome_iff_exists.mp
    (List.find?_isSome.mpr ⟨_, List.mem_flatten.mpr ⟨_, hps, List.mem_cons_self⟩, hPair⟩)
  obtain ⟨ps', hps', hMem⟩ := List.mem_flatten.mp (List.mem_of_find?_eq_some hp)
  obtain ⟨r', _, hLower'⟩ := forall₂_mem_right hRepeats hps'
  obtain ⟨lhs', item', _, _, rfl⟩ := lowerRepeat_eq_ok hLower'
  obtain ⟨hLhs, hTwo⟩ := LoweredProduction.isPair_iff.mp (List.find?_some (p := LoweredProduction.isPair s) hp)
  rw [hp]
  rcases List.mem_pair.mp hMem with rfl | rfl
  · obtain rfl : lhs' = s := hLhs
    rfl
  · cases hTwo

namespace Built

variable {g : Grammar} {l : LoweredGrammar} {states : Array LoweredGrammar.ItemState} {t : Table} (h : g.Built l states t)
  {r : Repetition} {s : Symbol}
include h

/-! ## Names of repetitions -/

theorem resolve_inj {a b : String} (ha : g.vocabulary.resolve a = .ok s) (hb : g.vocabulary.resolve b = .ok s) : a = b := by
  have hCount := h.symbolCount_lt
  exact Item.symbol.inj (Vocabulary.core_eq_of_itemSymbol (x := .symbol a) (y := .symbol b) (by omega) ha hb)

/-- A left-hand side is recorded as a repetition exactly if its name is declared as one. -/
theorem repetition_iff {p : LoweredProduction} (hp : p ∈ l.productions) {name : String}
    (hName : g.vocabulary.resolve name = .ok p.lhs) :
    (t.info? p.lhs).any (·.repetition) = true ↔ ∃ r ∈ g.repeats, r.lhs = name := by
  rcases Vocabulary.resolve_eq_ok hName with hToken | ⟨_, hNonterminal⟩
  · -- A token is no left-hand side.
    obtain ⟨i, hi, hLhs⟩ := Vocabulary.token?_eq_some hToken
    have hBound := (List.getElem?_eq_some_iff.mp hi).1
    have hCount := h.symbolCount_lt
    have hTerminal : t.isTerminal p.lhs = true := by
      rw [h.isTerminal_iff_lt, hLhs, Symbol.index_ofIndex]
      · rw [Vocabulary.terminalCount]
        omega
      · rw [Vocabulary.symbolCount, Vocabulary.terminalCount] at hCount
        omega
    rw [h.isTerminal_eq, (h.inScope.lhs p hp).1] at hTerminal
    cases hTerminal
  · obtain ⟨i, hi, hLhs⟩ := Vocabulary.nonterminal?_eq_some hNonterminal
    rw [hLhs, h.info?_nonterminal hi, Option.any_some, namedInfo, isRepetition, List.contains_iff_mem, List.mem_map]

/-! ## The first production of two children -/

theorem first_pair (hr : r ∈ g.repeats) (hs : g.vocabulary.resolve r.lhs = .ok s) :
    ∃ p, l.productions.find? (·.isPair s) = some p ∧ g.MakesLinks r.lhs s p := by
  obtain ⟨rules, repeats, hRules, hRepeats, hProductions, _⟩ := h.lowers.productions
  have hSame (rule : Rule) (p : LoweredProduction) (hLower : g.vocabulary.lowerRule rule = .ok p) :
      (rule.lhs == r.lhs && rule.items.length.toUInt16 == 2) = p.isPair s := by
    obtain ⟨hRhs, hLhs, _⟩ := lowerRule_eq_ok hLower
    rw [LoweredProduction.isPair, (mapM_eq_ok hRhs).length_eq]
    congr 1
    rw [Bool.eq_iff_iff, beq_iff_eq, beq_iff_eq]
    constructor
    · intro hName
      rw [hName, hs] at hLhs
      exact (Except.ok.inj hLhs).symm
    · rintro rfl
      exact h.resolve_inj hLhs hs
  have hFirst : Option.Rel _ (g.pairRule? r.lhs) (rules.find? (·.isPair s)) := forall₂_find? hRules hSame
  -- The productions of rules come before those of repetitions.
  rw [hProductions, List.find?_toArray, List.find?_append, find?_repeats hRepeats hr hs]
  unfold MakesLinks
  generalize g.pairRule? r.lhs = rule?, rules.find? (·.isPair s) = p? at hFirst
  cases hFirst with
  | some hLower => exact ⟨_, rfl, hLower⟩
  | none => exact ⟨_, rfl, rfl⟩

/-- The links of a repetition are made by the first rule of its symbol that has two items, and by `R -> R R` if there is no
such rule. -/
theorem binaryRepeat_resolve (hCount : t.productions.size < 65535) (hr : r ∈ g.repeats) :
    ∃ s id p, g.vocabulary.resolve r.lhs = .ok s ∧ t.binaryRepeat s = some id ∧ l.productions[id.toNat]? = some p ∧
      g.MakesLinks r.lhs s p := by
  obtain ⟨rules, repeats, _, hRepeats, _⟩ := h.lowers.productions
  obtain ⟨ps, _, hLower⟩ := forall₂_mem_left hRepeats hr
  obtain ⟨s, _, hs, _⟩ := lowerRepeat_eq_ok hLower
  obtain ⟨p, hFound, hLinks⟩ := h.first_pair hr hs
  obtain ⟨i, hIndex, hp⟩ := Option.bind_eq_some_iff.mp (Array.find?_eq_bind_findIdx?_getElem?.symm.trans hFound)
  have hBound := (Array.getElem?_eq_some_iff.mp hp).1
  have hLhs : p.lhs = s := (LoweredProduction.isPair_iff.mp (Array.find?_some (p := LoweredProduction.isPair s) hFound)).1
  have hTable : t.productions = l.productions.map fun p => ⟨p.lhs, p.rhs.length.toUInt16, p.fields⟩ := by
    rw [h.table]
    rfl
  have hRepeat : t.binaryRepeat s = some i.toUInt16 := by
    have hRepetition := (h.repetition_iff (Array.mem_of_getElem? hp) (hLhs ▸ hs)).mpr ⟨r, hr, rfl⟩
    rw [Table.binaryRepeat, if_pos (hLhs ▸ hRepetition), hTable, Array.findIdx?_map]
    exact congrArg (Option.map Nat.toUInt16) hIndex
  rw [hTable, Array.size_map] at hCount
  have hId : i.toUInt16.toNat = i := Nat.mod_eq_of_lt (by omega)
  exact ⟨s, i.toUInt16, p, hs, hRepeat, by rw [hId, hp], hLinks⟩

end Built
end Grammar

namespace Language

variable {b : Subtree.Balancing} {g : Grammar} {w : LoweredGrammar} {info : NodeInfo} {children : List Subtree}

/-- What balancing takes for a link has the children and the fields of the production that makes the links. -/
theorem BuiltFrom.of_isLink (h : b.language.BuiltFrom g) (hLower : g.lower = .ok w)
    (hCount : b.language.table.productions.size < 65535) (hInstance : Subtree.Instance b.language.table w info children)
    (hLink : b.isLink info = true) :
    ∃ r ∈ g.repeats, ∃ p, g.vocabulary.resolve r.lhs = .ok info.symbol ∧ g.MakesLinks r.lhs info.symbol p ∧
      Subtree.symbolsOf children = p.rhs ∧ (b.language.table.production info.production).fields = p.fields := by
  obtain ⟨w', states, hBuilt⟩ := h.built
  obtain rfl := Except.ok.inj (hLower.symm.trans hBuilt.lower)
  simp only [Subtree.Balancing.isLink, Bool.and_eq_true, beq_iff_eq] at hLink
  obtain ⟨hRepetition, hSome, row, hRow, hSymbol, -⟩ := Table.binaryRepeat_eq_some hCount hLink.2
  obtain ⟨p, hp, hLhs, hRhs⟩ := hInstance.made hSome
  have hMem := Array.mem_of_getElem? hp
  obtain ⟨name, hName⟩ : ∃ name, g.vocabulary.resolve name = .ok p.lhs := by
    rcases hBuilt.lowers.produces_iff.mpr ⟨p, hMem, rfl, rfl⟩ with ⟨rule, _, hName, _⟩ | ⟨r, _, hName, _⟩
    · exact ⟨rule.lhs, hName⟩
    · exact ⟨r.lhs, hName⟩
  obtain ⟨r, hr, rfl⟩ := (hBuilt.repetition_iff hMem hName).mp (hLhs ▸ hRepetition)
  obtain ⟨s, id, p', hs, hRepeat, hp', hLinks⟩ := hBuilt.binaryRepeat_resolve hCount hr
  obtain rfl : info.symbol = s := hLhs.trans (Except.ok.inj (hName.symm.trans hs))
  obtain rfl : info.production = id := Option.some.inj (hLink.2.symm.trans hRepeat)
  obtain rfl := Option.some.inj (hp.symm.trans hp')
  refine ⟨r, hr, p, hs, hLinks, hRhs, ?_⟩
  rw [Table.production, hBuilt.getElem?_productions, hp]
  rfl

/-- Where no rule of a repetition has two items, a link has two children of its own symbol besides extras, and no fields. -/
theorem BuiltFrom.doubles_of_isLink (h : b.language.BuiltFrom g) (hLower : g.lower = .ok w)
    (hCount : b.language.table.productions.size < 65535) (hPairs : ∀ r ∈ g.repeats, g.pairRule? r.lhs = none)
    (hInstance : Subtree.Instance b.language.table w info children) (hLink : b.isLink info = true) :
    Subtree.symbolsOf children = [info.symbol, info.symbol] ∧ (b.language.table.production info.production).fields = [] := by
  obtain ⟨r, hr, p, _, hLinks, hRhs, hFields⟩ := h.of_isLink hLower hCount hInstance hLink
  obtain rfl : p = .doubling info.symbol := by rwa [Grammar.MakesLinks, hPairs r hr] at hLinks
  exact ⟨hRhs, hFields⟩

end Language

namespace Chain

variable {c : Chain} {m : Maker}

theorem build_top (weights : Array Nat) {lo hi : Nat} (h : lo + 1 < hi) (leading trailing : List Subtree) (id : NodeId) :
    (c.build m weights lo hi leading trailing id).1.symbol = m.symbol ∧
      (c.build m weights lo hi leading trailing id).1.info.production = m.production ∧
      (c.build m weights lo hi leading trailing id).1.isExtra = false := by
  rw [build, dif_pos h]
  exact ⟨rfl, rfl, rfl⟩

theorem leading_add {c : Chain} (h : ∀ s ∈ c.leading, s.isExtra = true) (piece : Subtree) :
    ∀ s ∈ (c.add piece).leading, s.isExtra = true := by
  rw [add]
  split
  next hExtra =>
    split
    · intro s hs
      rcases List.mem_append.mp hs with hs | hs
      · exact h s hs
      · rwa [List.mem_singleton.mp hs]
    · exact h
  next => split <;> exact h

theorem leading_ofPieces (pieces : List Subtree) : ∀ s ∈ (ofPieces pieces).leading, s.isExtra = true := by
  have hFold (c : Chain) (h : ∀ s ∈ c.leading, s.isExtra = true) : ∀ s ∈ (pieces.foldl add c).leading, s.isExtra = true := by
    induction pieces generalizing c with
    | nil => exact h
    | cons piece rest ih => exact ih _ (leading_add h piece)
  exact hFold _ (by simp)

theorem two_le_splitFrom (hThree : 3 ≤ c.items.size) (hWeights : ∀ item ∈ c.items, 1 ≤ item.info.descendants)
    (hFirst : (c.item 0).info.descendants = 1) : 2 ≤ splitFrom (weights c.items.toList) 0 c.items.size 1 := by
  have hRises := rises_weights hWeights
  have hZero : weightBefore (weights c.items.toList) 0 = 0 := by
    rw [weightBefore_weights _ (Nat.zero_le _)]
    rfl
  have hOne : weightBefore (weights c.items.toList) 1 = 1 := by
    have hItem : c.item 0 = c.items[0] := by rw [item, Array.getElem?_eq_getElem (by omega), Option.getD_some]
    rw [weightBefore_weights _ (by rw [Array.length_toList]; omega), List.take_one, List.head?_eq_getElem?,
      Array.getElem?_toList, Array.getElem?_eq_getElem (by omega), ← hItem]
    exact hFirst
  have hTwo : weightBefore (weights c.items.toList) 1 < weightBefore (weights c.items.toList) 2 := hRises 1 (by omega)
  have hThird : weightBefore (weights c.items.toList) 2 < weightBefore (weights c.items.toList) 3 := hRises 2 (by omega)
  have hAll := hRises.le hThree le_rfl
  -- A single node has less than half the weight of three.
  rw [splitFrom]
  dsimp only
  rw [dif_pos]
  · exact (splitFrom_bounds _ 0 (by omega)).1
  · change 1 + 1 < _ ∧ (weightBefore _ 1 - weightBefore _ 0) * 2 < weightBefore _ _ - weightBefore _ 0
    omega

/-- If the first of three or more items is a single node, a link comes to stand in its place. -/
theorem symbolsOf_build (hThree : 3 ≤ c.items.size) (hWeights : ∀ item ∈ c.items, 1 ≤ item.info.descendants)
    (hFirst : (c.item 0).info.descendants = 1) (leading trailing : List Subtree) (id : NodeId)
    (hLeading : ∀ s ∈ leading, s.isExtra = true) :
    (Subtree.symbolsOf (c.build m (weights c.items.toList) 0 c.items.size leading trailing id).1.children).head? =
      some m.symbol := by
  have hSplit := two_le_splitFrom hThree hWeights hFirst
  obtain ⟨hSymbol, -, hExtra⟩ := build_top (c := c) (m := m) (weights c.items.toList) (show 0 + 1 < _ from hSplit) [] [] id
  rw [build, dif_pos (by omega)]
  dsimp only [Subtree.ofChildren, Subtree.children]
  simp only [Subtree.symbolsOf_append, Subtree.symbolsOf_extras hLeading, List.nil_append, List.append_assoc]
  rw [Nat.zero_add, Subtree.symbolsOf_singleton hExtra, hSymbol]
  rfl

end Chain

namespace Subtree

variable {b : Balancing} {w : LoweredGrammar} {info : NodeInfo} {children : List Subtree}

/-- A chain of three or more pieces whose first item is a single node is given a link as its first child. Where the links are
made by a rule that begins with another symbol, the node is an instance of its production no more. -/
theorem not_made_balanced (hLink : b.isLink info = true) (hChildren : children ≠ []) {p : LoweredProduction}
    (hProduction : info.production ≠ noProduction) (hp : w.productions[info.production.toNat]? = some p)
    (hHead : p.rhs.head? ≠ some info.symbol) {id : NodeId} {c : Chain}
    (hChain : Chain.ofPieces (chainPieces b info.symbol id children).1 = c) (hThree : 3 ≤ c.items.size)
    (hWeights : ∀ item ∈ c.items, 1 ≤ item.info.descendants) (hFirst : (c.item 0).info.descendants = 1) :
    ¬(balanced b id (node info children)).1.All (Made w) := by
  have hFresh : b.fresh info.id = true := (Bool.and_eq_true_iff.mp hLink).1
  have hSymbols := Chain.symbolsOf_build (m := ⟨b.language, info.symbol, info.production⟩) hThree hWeights hFirst
    c.leading c.trailing (chainPieces b info.symbol id children).2 (hChain ▸ Chain.leading_ofPieces _)
  obtain ⟨-, hTop, -⟩ := Chain.build_top (c := c) (m := ⟨b.language, info.symbol, info.production⟩)
    (Chain.weights c.items.toList) (show 0 + 1 < c.items.size by omega) c.leading c.trailing
    (chainPieces b info.symbol id children).2
  intro hAll
  have hHere := hAll.here
  rw [balanced, if_neg (by simp [hChildren, hFresh]), if_pos hLink] at hHere
  dsimp only at hHere
  rw [rebuildChain, hChain] at hHere
  dsimp only at hHere
  rw [if_neg (by omega)] at hHere
  obtain ⟨p', hp', -, hRhs⟩ := hHere (hTop ▸ hProduction)
  rw [withLookahead, info_update, hTop] at hp'
  obtain rfl := Option.some.inj (hp.symm.trans hp')
  rw [withLookahead, children_update] at hRhs
  exact hHead (hRhs ▸ hSymbols)

end Subtree

/-- Keys that lean to the right, in a repetition of `i`. -/
def Grammar.paired : Grammar where
  name := "paired"
  tokens := [("i", .literal ['i'])]
  rules := [⟨"pairs", [.field "key" (.literal "k"), .field "rest" (.symbol "pairs")], 0, .none⟩]
  repeats := [⟨"pairs", "i"⟩]

/-- The productions of `paired`, that of the rule first, and its states. -/
def Grammar.pairedLowered : LoweredGrammar :=
  paired.assemble [] [] none [⟨⟨3⟩, [⟨2⟩, ⟨3⟩], [(0, 0), (1, 1)], 0, .none, false⟩, .doubling ⟨3⟩,
    ⟨⟨3⟩, [⟨1⟩], [], 0, .none, false⟩] ⟨3⟩

def Grammar.pairedStates : Array LoweredGrammar.ItemState :=
  #[⟨[⟨3, 0⟩, ⟨0, 0⟩, ⟨1, 0⟩, ⟨2, 0⟩], [(⟨1⟩, 1), (⟨2⟩, 2), (⟨3⟩, 3)]⟩,
    ⟨[⟨2, 1⟩], []⟩,
    ⟨[⟨0, 1⟩, ⟨0, 0⟩, ⟨1, 0⟩, ⟨2, 0⟩], [(⟨1⟩, 1), (⟨2⟩, 2), (⟨3⟩, 4)]⟩,
    ⟨[⟨1, 1⟩, ⟨3, 1⟩, ⟨0, 0⟩, ⟨1, 0⟩, ⟨2, 0⟩], [(⟨1⟩, 1), (⟨2⟩, 2), (⟨3⟩, 5)]⟩,
    ⟨[⟨0, 2⟩, ⟨1, 1⟩, ⟨0, 0⟩, ⟨1, 0⟩, ⟨2, 0⟩], [(⟨1⟩, 1), (⟨2⟩, 2), (⟨3⟩, 5)]⟩,
    ⟨[⟨1, 1⟩, ⟨1, 2⟩, ⟨0, 0⟩, ⟨1, 0⟩, ⟨2, 0⟩], [(⟨1⟩, 1), (⟨2⟩, 2), (⟨3⟩, 5)]⟩]

theorem Grammar.paired_lower : paired.lower = .ok pairedLowered := by cbv

def Language.paired : Language := .ofValid 0 (Grammar.pairedLowered.toTable Grammar.pairedStates) Blob.formatVersion

theorem Language.paired_builtFrom : Language.paired.BuiltFrom .paired := by
  have hStates : Grammar.pairedLowered.itemStates = .ok Grammar.pairedStates := by cbv
  have hFault : (Grammar.pairedLowered.toTable Grammar.pairedStates).fault? = none := by decide +kernel
  exact ⟨Grammar.build_of_lower Grammar.paired_lower hStates hFault, rfl, rfl, rfl⟩

namespace Subtree

/-- Two keys, one in the rest of the other. -/
def paired : Subtree :=
  let key (id : NodeId) (rest : Subtree) : Subtree :=
    ofChildren .paired (id + 1) ⟨3⟩ [leaf .paired id ⟨2⟩ 1 0 0 0 none, rest] 0 0
  key 4 (key 2 (ofChildren .paired 1 ⟨3⟩ [leaf .paired 0 ⟨1⟩ 1 0 0 0 none] 2 0))

/-- The keys are taken for links. They are instances of their rule, and no longer so once they are balanced. -/
theorem paired_flattened : paired.All (Made Grammar.pairedLowered) ∧
    ¬(balanced ⟨.paired, fun _ => true⟩ 6 paired).1.All (Made Grammar.pairedLowered) := by
  constructor
  · have hToken (id : NodeId) (s : Symbol) :
        (leaf .paired id s 1 0 0 0 none).All (Instance Language.paired.table Grammar.pairedLowered) := all_instance_token
    have hKey (id : NodeId) {rest : Subtree} (hRest : rest.All (Instance Language.paired.table Grammar.pairedLowered))
        (hSymbols : symbolsOf [leaf .paired id ⟨2⟩ 1 0 0 0 none, rest] = [⟨2⟩, ⟨3⟩]) :
        (ofChildren .paired (id + 1) ⟨3⟩ [leaf .paired id ⟨2⟩ 1 0 0 0 none, rest] 0 0).All
          (Instance Language.paired.table Grammar.pairedLowered) := by
      refine all_instance_ofChildren (fun c hc => ?_) fun _ => ⟨_, rfl, rfl, hSymbols⟩
      rcases List.mem_pair.mp hc with rfl | rfl
      · exact hToken id ⟨2⟩
      · exact hRest
    have hItem : (ofChildren .paired 1 ⟨3⟩ [leaf .paired 0 ⟨1⟩ 1 0 0 0 none] 2 0).All
        (Instance Language.paired.table Grammar.pairedLowered) := by
      refine all_instance_ofChildren (fun c hc => ?_) fun _ => ⟨_, rfl, rfl, by decide +kernel⟩
      rw [List.mem_singleton.mp hc]
      exact hToken 0 ⟨1⟩
    exact (hKey 4 (hKey 2 hItem (by decide +kernel)) (by decide +kernel)).mono fun _ _ hInstance => hInstance.made
  · have hLink : Balancing.isLink ⟨.paired, fun _ => true⟩ paired.info = true := by decide +kernel
    let c : Chain := Chain.ofPieces (chainPieces ⟨.paired, fun _ => true⟩ paired.info.symbol 6 paired.children).1
    have hWeights : ∀ item ∈ c.items, 1 ≤ item.info.descendants := by decide +kernel
    have hFirst : (c.item 0).info.descendants = 1 := by decide +kernel
    exact not_made_balanced hLink (List.cons_ne_nil _ _) (by decide)
      (p := ⟨⟨3⟩, [⟨2⟩, ⟨3⟩], [(0, 0), (1, 1)], 0, .none, false⟩) rfl (by decide) rfl (by decide +kernel) hWeights hFirst

end Subtree
end Reparse
