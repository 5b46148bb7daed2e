import Reparse.Proofs.Parse.Tables
import Reparse.Proofs.Table
import Reparse.Proofs.Tree.Instances
/-!
# Grammars whose extras and repetitions stand apart

Where no rule mentions an extra, an extra is never shifted. Where no rule is given to the symbol of a repetition, the
links of its chains are made by `R -> R R`.
-/
namespace Reparse

open LoweredGrammar

namespace Grammar

/-- Neither a rule nor a repetition mentions an extra. -/
structure ExtrasApart (g : Grammar) : Prop where
  rules : ∀ rule ∈ g.rules, ∀ item ∈ rule.items, ∀ name ∈ g.extras, item.core ≠ .symbol name
  repeats : ∀ r ∈ g.repeats, r.item ∉ g.extras

/-- No rule is given to the symbol of a repetition. -/
def RepeatsApart (g : Grammar) : Prop := ∀ rule ∈ g.rules, ∀ r ∈ g.repeats, rule.lhs ≠ r.lhs

instance (g : Grammar) : Decidable g.ExtrasApart :=
  decidable_of_iff ((∀ rule ∈ g.rules, ∀ item ∈ rule.items, ∀ name ∈ g.extras, item.core ≠ .symbol name) ∧
    ∀ r ∈ g.repeats, r.item ∉ g.extras) ⟨fun h => ⟨h.1, h.2⟩, fun h => ⟨h.rules, h.repeats⟩⟩

instance (g : Grammar) : Decidable g.RepeatsApart :=
  inferInstanceAs (Decidable (∀ rule ∈ g.rules, ∀ r ∈ g.repeats, rule.lhs ≠ r.lhs))

namespace Built

variable {g : Grammar} {l : LoweredGrammar} {states : Array ItemState} {t : Table} (h : g.Built l states t)
include h

/-! ## What a table records of a name -/

theorem info?_ofIndex {i : Nat} (hi : i < g.vocabulary.symbolCount) :
    t.info? (.ofIndex i) = (g.symbolInfos g.vocabulary)[i]? := by
  have hCount := h.symbolCount_lt
  have hSymbols : t.symbols = (g.symbolInfos g.vocabulary).toArray := by rw [h.table]; exact h.lowers.symbols
  rw [Table.info?, Symbol.index_ofIndex (by omega), hSymbols, List.getElem?_toArray]

theorem info?_token {i : Nat} {name : String} (hi : g.vocabulary.tokens[i]? = some name) :
    t.info? (.ofIndex (1 + i)) = some (namedInfo name (g.extras.contains name) false) := by
  have hBound := (List.getElem?_eq_some_iff.mp hi).1
  rw [h.info?_ofIndex (by simp only [Vocabulary.symbolCount, Vocabulary.terminalCount]; omega), symbolInfos,
    Nat.add_comm, List.cons_append, List.cons_append, List.getElem?_cons_succ, List.append_assoc,
    List.getElem?_append_left (by rwa [List.length_map]), List.getElem?_map, hi]
  rfl

theorem info?_literal {i : Nat} {text : String} (hi : g.vocabulary.literals[i]? = some text) :
    t.info? (.ofIndex (1 + g.vocabulary.tokens.length + i)) = some (literalInfo text) := by
  have hBound := (List.getElem?_eq_some_iff.mp hi).1
  rw [h.info?_ofIndex (by simp only [Vocabulary.symbolCount, Vocabulary.terminalCount]; omega), symbolInfos,
    Nat.add_assoc, Nat.add_comm, List.cons_append, List.cons_append, List.getElem?_cons_succ,
    List.getElem?_append_left (by simp only [List.length_append, List.length_map]; omega),
    List.getElem?_append_right (by rw [List.length_map]; omega), List.length_map, Nat.add_sub_cancel_left,
    List.getElem?_map, hi]
  rfl

theorem info?_nonterminal {i : Nat} {name : String} (hi : g.vocabulary.nonterminals[i]? = some name) :
    t.info? (.ofIndex (g.vocabulary.terminalCount + i)) = some (namedInfo name false (g.isRepetition name)) := by
  have hBound := (List.getElem?_eq_some_iff.mp hi).1
  have hIndex : g.vocabulary.terminalCount + i = g.vocabulary.tokens.length + g.vocabulary.literals.length + i + 1 := by
    rw [Vocabulary.terminalCount]
    omega
  rw [h.info?_ofIndex (by rw [Vocabulary.symbolCount]; omega), hIndex, symbolInfos, List.cons_append, List.cons_append,
    List.getElem?_cons_succ,
    List.getElem?_append_right (by simp only [List.length_append, List.length_map]; omega)]
  simp only [List.length_append, List.length_map, Nat.add_sub_cancel_left, List.getElem?_map, hi]
  rfl

theorem info?_resolve {name : String} {s : Symbol} (hName : g.vocabulary.resolve name = .ok s) :
    t.info? s = some (namedInfo name (g.extras.contains name) false) ∨
      t.info? s = some (namedInfo name false (g.isRepetition name)) := by
  rcases Vocabulary.resolve_eq_ok hName with hToken | ⟨_, hNonterminal⟩
  · obtain ⟨i, hi, rfl⟩ := Vocabulary.token?_eq_some hToken
    exact .inl (h.info?_token hi)
  · obtain ⟨i, hi, rfl⟩ := Vocabulary.nonterminal?_eq_some hNonterminal
    exact .inr (h.info?_nonterminal hi)

/-! ## Extras -/

theorem mem_extras_of_resolve {name : String} {s : Symbol} (hName : g.vocabulary.resolve name = .ok s)
    (hExtra : t.isExtra s = true) : name ∈ g.extras := by
  rw [Table.isExtra] at hExtra
  rcases h.info?_resolve hName with hInfo | hInfo
  · rw [hInfo] at hExtra
    exact List.contains_iff_mem.mp hExtra
  · rw [hInfo] at hExtra
    cases hExtra

theorem mem_extras_of_itemSymbol {item : Item} {s : Symbol} (hItem : g.vocabulary.itemSymbol item = .ok s)
    (hExtra : t.isExtra s = true) : ∃ name ∈ g.extras, item.core = .symbol name := by
  induction item with
  | symbol name => exact ⟨name, h.mem_extras_of_resolve hItem hExtra, rfl⟩
  | literal text =>
    rw [Vocabulary.itemSymbol] at hItem
    cases hText : g.vocabulary.literal? text with
    | none =>
      rw [hText] at hItem
      cases hItem
    | some s' =>
      rw [hText] at hItem
      obtain rfl := Except.ok.inj hItem
      obtain ⟨i, hi, rfl⟩ := Vocabulary.literal?_eq_some hText
      rw [Table.isExtra, h.info?_literal hi] at hExtra
      cases hExtra
  | field name item ih => exact ih hItem

/-- No right-hand side has an extra. -/
theorem not_isExtra_of_rhs (hApart : g.ExtrasApart) {p : LoweredProduction} (hp : p ∈ l.productions) {s : Symbol}
    (hs : s ∈ p.rhs) : t.isExtra s = false := by
  by_contra hNot
  have hExtra : t.isExtra s = true := by simpa using hNot
  rcases h.lowers.produces_iff.mpr ⟨p, hp, rfl, rfl⟩ with ⟨rule, hRule, _, hRhs⟩ | ⟨r, hr, hLhs, hTwice | ⟨item, hItem, hOnce⟩⟩
  · obtain ⟨item, hMem, hItem⟩ := forall₂_mem_right (mapM_eq_ok hRhs) hs
    obtain ⟨name, hName, hCore⟩ := h.mem_extras_of_itemSymbol hItem hExtra
    exact hApart.rules rule hRule item hMem name hName hCore
  · have hTerminal := (h.isToken_of_isExtra hExtra).1
    rw [hTwice] at hs
    obtain rfl : s = p.lhs := by simpa using hs
    rw [h.isTerminal_eq, (h.inScope.lhs p hp).1] at hTerminal
    cases hTerminal
  · rw [hOnce, List.mem_singleton] at hs
    subst hs
    exact hApart.repeats r hr (h.mem_extras_of_resolve hItem hExtra)

/-! ## Repetitions -/

theorem getElem?_productions (i : Nat) :
    t.productions[i]? = l.productions[i]?.map fun p => ⟨p.lhs, p.rhs.length.toUInt16, p.fields⟩ := by
  rw [h.table]
  simp [toTable]

/-- The rules of a repetition are all that its symbol has. -/
theorem rhs_of_repetition (hApart : g.RepeatsApart) {p : LoweredProduction} (hp : p ∈ l.productions)
    (hRepetition : (t.info? p.lhs).any (·.repetition) = true) :
    p.fields = [] ∧ (p.rhs = [p.lhs, p.lhs] ∨ ∃ item, p.rhs = [item]) := by
  obtain ⟨rules, repeats, hRules, hRepeats, hProductions, _⟩ := h.lowers.productions
  rw [hProductions, List.mem_toArray, List.mem_append, List.mem_flatten] at hp
  rcases hp with hp | ⟨ps, hps, hp⟩
  · -- A rule would be one of the repetition.
    obtain ⟨rule, hRule, hLower⟩ := forall₂_mem_right hRules hp
    rcases h.info?_resolve (lowerRule_eq_ok hLower).2.1 with hRecord | hRecord
    · rw [hRecord] at hRepetition
      cases hRepetition
    · rw [hRecord] at hRepetition
      obtain ⟨r, hr, hSame⟩ := List.mem_map.mp (List.contains_iff_mem.mp hRepetition)
      exact absurd hSame.symm (hApart rule hRule r hr)
  · obtain ⟨r, _, hLower⟩ := forall₂_mem_right hRepeats hps
    obtain ⟨lhs, item, _, _, rfl⟩ := lowerRepeat_eq_ok hLower
    rcases List.mem_pair.mp hp with rfl | rfl
    · exact ⟨rfl, .inl rfl⟩
    · exact ⟨rfl, .inr ⟨item, rfl⟩⟩

/-- The production of the links is `R -> R R`. -/
theorem doubling_of_binaryRepeat (hApart : g.RepeatsApart) (hCount : t.productions.size < 65535) {s : Symbol}
    {id : ProductionId} (hRepeat : t.binaryRepeat s = some id) : id ≠ noProduction ∧ Subtree.Doubling l s id := by
  obtain ⟨hRepetition, hSome, row, hRow, rfl, hTwo⟩ := Table.binaryRepeat_eq_some hCount hRepeat
  rw [h.getElem?_productions] at hRow
  obtain ⟨p, hp, rfl⟩ := Option.map_eq_some_iff.mp hRow
  obtain ⟨-, hRhs | ⟨item, hRhs⟩⟩ := h.rhs_of_repetition hApart (Array.mem_of_getElem? hp) hRepetition
  · exact ⟨hSome, p, hp, rfl, hRhs⟩
  · rw [hRhs] at hTwo
    cases hTwo

end Built

end Grammar

theorem Language.BuiltFrom.repeats {l : Language} {g : Grammar} {w : LoweredGrammar} (h : l.BuiltFrom g) (hLower : g.lower = .ok w)
    (hApart : g.RepeatsApart) (hCount : l.table.productions.size < 65535) : Subtree.Repeats l.table w := by
  obtain ⟨w', states, hBuilt⟩ := h.built
  obtain rfl := Except.ok.inj (hLower.symm.trans hBuilt.lower)
  refine ⟨fun s id => hBuilt.doubling_of_binaryRepeat hApart hCount, fun s id hRepeat => ⟨?_, ?_⟩⟩
  · rintro rfl
    rw [h.repeatsRules .error rfl] at hRepeat
    cases hRepeat
  · by_contra hNot
    rw [hBuilt.binaryRepeat_eq_none (hBuilt.isToken_of_isExtra (by simpa using hNot)).1] at hRepeat
    cases hRepeat

end Reparse
