import Reparse.Grammar.Build
import Mathlib
/-!
# Grammars that compile

What is known of a grammar once `Grammar.build` has answered with a table: how its symbols are numbered,
and that the productions name symbols of the table only.
-/
namespace Reparse

theorem mapM_eq_ok {α β ε : Type} {f : α → Except ε β} {xs : List α} {ys : List β}
    (h : xs.mapM f = .ok ys) : List.Forall₂ (fun x y => f x = .ok y) xs ys := by
  induction xs generalizing ys with
  | nil =>
    obtain rfl := Except.ok.inj h
    exact .nil
  | cons x rest ih =>
    rw [List.mapM_cons] at h
    match hx : f x, hRest : rest.mapM f with
    | .error e, _ => rw [hx] at h; cases h
    | .ok y, .error e => rw [hx, hRest] at h; cases h
    | .ok y, .ok ys' =>
      rw [hx, hRest] at h
      obtain rfl := Except.ok.inj h
      exact .cons hx (ih hRest)

namespace Table

variable {t : Table}

/-- A valid table has none of the faults that are looked for. -/
structure Valid (t : Table) : Prop where
  dimensions : t.dimensionFault = none
  productions : ∀ p ∈ t.productions, t.productionFault p = none
  actions : ∀ a ∈ t.actions, t.actionFault a = none
  gotos : ∀ a ∈ t.gotos, t.gotoFault a = none
  lex : t.lexFault = none
  keywords : t.keywordFault = none
  extras : t.extraFault = none

theorem valid_of_fault? (h : t.fault? = none) : t.Valid := by
  simp only [fault?, Option.orElse_eq_orElse, Option.orElse_eq_or, Option.or_eq_none_iff,
    List.findSome?_eq_none_iff, Array.mem_toList_iff] at h
  obtain ⟨h1, h2, h3, h4, h5, h6, h7⟩ := h
  exact ⟨h1, h2, h3, h4, h5, h6, h7⟩

namespace Valid

theorem guard_eq_none {α : Type} {c : Prop} [Decidable c] {a : α} {rest : Option α} :
    (if c then some a else rest) = none ↔ ¬c ∧ rest = none := by
  by_cases h : c <;> simp [h]

variable (h : t.Valid)
include h

theorem dimensions_fit : 0 < t.tokenCount.toNat ∧ t.tokenCount.toNat ≤ t.symbols.size ∧ t.symbols.size < 65535 ∧
    0 < t.stateCount.toNat ∧ t.tokenLex.size = t.tokenCount.toNat ∧ t.isNonterminal t.start = true := by
  have hNone := h.dimensions
  simp only [dimensionFault, guard_eq_none] at hNone
  obtain ⟨hTokens, hSymbols, hStates, _, _, hLex, hStart, _⟩ := hNone
  have hError : Symbol.error.index = 65535 := rfl
  exact ⟨by omega, by omega, by omega, by omega, by simpa using hLex, by simpa using hStart⟩

theorem symbols_lt : t.symbols.size < 65535 := h.dimensions_fit.2.2.1

theorem tokens_pos : 0 < t.tokenCount.toNat := h.dimensions_fit.1

theorem tokens_le : t.tokenCount.toNat ≤ t.symbols.size := h.dimensions_fit.2.1

theorem states_pos : 0 < t.stateCount.toNat := h.dimensions_fit.2.2.2.1

theorem size_tokenLex : t.tokenLex.size = t.tokenCount.toNat := h.dimensions_fit.2.2.2.2.1

theorem start_nonterminal : t.isNonterminal t.start = true := h.dimensions_fit.2.2.2.2.2

theorem extra_terminal {s : Symbol} (hs : s ∈ t.extras ∨ s ∈ t.externals) :
    t.isTerminal s = true ∧ s ≠ .eof := by
  have hNone := h.extras
  simp only [extraFault, guard_eq_none, and_true, List.any_eq_true, not_exists, not_and, List.mem_append,
    Bool.or_eq_true, Bool.not_eq_true', beq_iff_eq, not_or, Bool.not_eq_false] at hNone
  exact hNone s hs

/-- The word token has an automaton and is no literal. -/
theorem word_pattern {word : Symbol} (hWord : t.word = some word) :
    t.isTerminal word = true ∧ (t.lexOf word).start.isSome = true ∧ (t.lexOf word).literal = false := by
  have hNone := h.keywords
  simp only [keywordFault, guard_eq_none, hWord, Option.any_some, Bool.not_eq_true', Bool.not_eq_false] at hNone
  obtain ⟨lex, hLex, hPattern⟩ := (Option.any_eq_true _ _).mp hNone.1
  have hBound := (Array.getElem?_eq_some_iff.mp hLex).1
  rw [h.size_tokenLex] at hBound
  simp only [Bool.and_eq_true, Bool.not_eq_true'] at hPattern
  rw [lexOf, hLex]
  refine ⟨?_, hPattern⟩
  simpa [isTerminal, UInt16.lt_iff_toNat_lt, Symbol.index] using hBound

/-- Keywords are literals of a table with a word token. -/
theorem keyword_literal {s : Symbol} (hKeyword : (t.lexOf s).keyword = true) :
    (t.lexOf s).literal = true ∧ t.word.isSome = true := by
  have hNone := h.keywords
  simp only [keywordFault, guard_eq_none] at hNone
  have hAll := hNone.2.1
  cases hLex : t.tokenLex[s.index]? with
  | none => simp [lexOf, hLex, TokenLex.none] at hKeyword
  | some lex =>
    have hMem := Array.mem_of_getElem? hLex
    rw [lexOf, hLex, Option.getD_some] at hKeyword ⊢
    simp only [Array.any_eq_true', not_exists, not_and, Bool.and_eq_true, Bool.or_eq_true, Bool.not_eq_true', not_or,
      Bool.not_eq_false] at hAll
    have := hAll lex hMem hKeyword
    exact ⟨this.2, Option.isSome_iff_ne_none.mpr (by simpa using this.1)⟩

theorem lhs_nonterminal {p : Production} (hp : p ∈ t.productions) : t.isNonterminal p.lhs = true := by
  have hNone := h.productions p hp
  simp only [productionFault, guard_eq_none] at hNone
  simpa using hNone.1

end Valid

end Table

/-- The item stands for a token: an anonymous one or one of these. -/
def Item.IsToken (names : List String) : Item → Prop
  | .symbol name => name ∈ names
  | .literal _ => True
  | .field _ item => item.IsToken names

namespace Vocabulary

variable {v : Vocabulary}

theorem token?_eq_some {name : String} {s : Symbol} (h : v.token? name = some s) :
    ∃ i, v.tokens[i]? = some name ∧ s = .ofIndex (1 + i) := by
  obtain ⟨i, hi, rfl⟩ := Option.map_eq_some_iff.mp h
  obtain ⟨hBound, hAt, _⟩ := List.idxOf?_eq_some_iff.mp hi
  exact ⟨i, by rw [List.getElem?_eq_getElem hBound, hAt], rfl⟩

theorem literal?_eq_some {text : String} {s : Symbol} (h : v.literal? text = some s) :
    ∃ i, v.literals[i]? = some text ∧ s = .ofIndex (1 + v.tokens.length + i) := by
  obtain ⟨i, hi, rfl⟩ := Option.map_eq_some_iff.mp h
  obtain ⟨hBound, hAt, _⟩ := List.idxOf?_eq_some_iff.mp hi
  exact ⟨i, by rw [List.getElem?_eq_getElem hBound, hAt], rfl⟩

theorem nonterminal?_eq_some {name : String} {s : Symbol} (h : v.nonterminal? name = some s) :
    ∃ i, v.nonterminals[i]? = some name ∧ s = .ofIndex (v.terminalCount + i) := by
  obtain ⟨i, hi, rfl⟩ := Option.map_eq_some_iff.mp h
  obtain ⟨hBound, hAt, _⟩ := List.idxOf?_eq_some_iff.mp hi
  exact ⟨i, by rw [List.getElem?_eq_getElem hBound, hAt], rfl⟩

/-- The kinds of names, with the symbols that stand for them. -/
inductive Denotes (v : Vocabulary) : Symbol → Prop
  | token {i : Nat} {name : String} : v.tokens[i]? = some name → Denotes v (.ofIndex (1 + i))
  | literal {i : Nat} {text : String} :
    v.literals[i]? = some text → Denotes v (.ofIndex (1 + v.tokens.length + i))
  | nonterminal {i : Nat} {name : String} :
    v.nonterminals[i]? = some name → Denotes v (.ofIndex (v.terminalCount + i))

theorem resolve_eq_ok {name : String} {s : Symbol} (h : v.resolve name = .ok s) :
    v.token? name = some s ∨ (v.token? name = none ∧ v.nonterminal? name = some s) := by
  rw [resolve] at h
  cases hToken : v.token? name with
  | some s' =>
    rw [hToken] at h
    exact .inl (congrArg some (Except.ok.inj h))
  | none =>
    cases hName : v.nonterminal? name with
    | some s' =>
      rw [hToken, hName] at h
      exact .inr ⟨rfl, congrArg some (Except.ok.inj h)⟩
    | none =>
      rw [hToken, hName] at h
      cases h

theorem denotes_of_resolve {name : String} {s : Symbol} (h : v.resolve name = .ok s) : v.Denotes s := by
  rcases resolve_eq_ok h with h | ⟨_, h⟩
  · obtain ⟨i, hi, rfl⟩ := token?_eq_some h
    exact .token hi
  · obtain ⟨i, hi, rfl⟩ := nonterminal?_eq_some h
    exact .nonterminal hi

theorem denotes_of_itemSymbol {item : Item} {s : Symbol} (h : v.itemSymbol item = .ok s) : v.Denotes s := by
  induction item with
  | symbol name => exact denotes_of_resolve h
  | literal text =>
    rw [itemSymbol] at h
    cases hText : v.literal? text with
    | none => rw [hText] at h; cases h
    | some s' =>
      rw [hText] at h
      obtain rfl := Except.ok.inj h
      obtain ⟨i, hi, rfl⟩ := literal?_eq_some hText
      exact .literal hi
  | field name item ih => exact ih h

/-- How many symbols there are with the end of the input. -/
def symbolCount (v : Vocabulary) : Nat := v.terminalCount + v.nonterminals.length

theorem Denotes.index_lt {s : Symbol} (h : v.Denotes s) (hCount : v.symbolCount < 65536) :
    0 < s.index ∧ s.index < v.symbolCount := by
  simp only [symbolCount, terminalCount] at hCount ⊢
  cases h with
  | token hi =>
    have := (List.getElem?_eq_some_iff.mp hi).1
    rw [Symbol.index_ofIndex (by omega)]
    omega
  | literal hi =>
    have := (List.getElem?_eq_some_iff.mp hi).1
    rw [Symbol.index_ofIndex (by omega)]
    omega
  | nonterminal hi =>
    have := (List.getElem?_eq_some_iff.mp hi).1
    simp only [terminalCount]
    rw [Symbol.index_ofIndex (by omega)]
    omega

/-- What the symbols after the end of the input stand for, in their order. -/
def items (v : Vocabulary) : List Item :=
  v.tokens.map .symbol ++ v.literals.map .literal ++ v.nonterminals.map .symbol

theorem items_of_itemSymbol {item : Item} {s : Symbol} (hCount : v.symbolCount < 65536)
    (h : v.itemSymbol item = .ok s) : 0 < s.index ∧ v.items[s.index - 1]? = some item.core := by
  have hIndex {i : Nat} (hi : i < v.tokens.length + v.literals.length + v.nonterminals.length) :
      (Symbol.ofIndex (1 + i)).index = 1 + i := by
    rw [symbolCount, terminalCount] at hCount
    exact Symbol.index_ofIndex (by omega)
  induction item with
  | symbol name =>
    rcases resolve_eq_ok h with h | ⟨_, h⟩
    · obtain ⟨i, hi, rfl⟩ := token?_eq_some h
      have hBound := (List.getElem?_eq_some_iff.mp hi).1
      rw [hIndex (by omega)]
      refine ⟨by omega, ?_⟩
      rw [Nat.add_sub_cancel_left, items, List.getElem?_append_left (by rw [List.length_append, List.length_map]; omega),
        List.getElem?_append_left (by simpa using hBound), List.getElem?_map, hi]
      rfl
    · obtain ⟨i, hi, rfl⟩ := nonterminal?_eq_some h
      have hBound := (List.getElem?_eq_some_iff.mp hi).1
      rw [terminalCount, Nat.add_assoc, Nat.add_assoc, hIndex (by omega)]
      refine ⟨by omega, ?_⟩
      rw [Nat.add_sub_cancel_left, items, List.getElem?_append_right (by rw [List.length_append, List.length_map, List.length_map]; omega),
        List.length_append, List.length_map, List.length_map, ← Nat.add_assoc, Nat.add_sub_cancel_left, List.getElem?_map, hi]
      rfl
  | literal text =>
    rw [itemSymbol] at h
    cases hText : v.literal? text with
    | none => rw [hText] at h; cases h
    | some s' =>
      rw [hText] at h
      obtain rfl := Except.ok.inj h
      obtain ⟨i, hi, rfl⟩ := literal?_eq_some hText
      have hBound := (List.getElem?_eq_some_iff.mp hi).1
      rw [Nat.add_assoc, hIndex (by omega)]
      refine ⟨by omega, ?_⟩
      rw [Nat.add_sub_cancel_left, items, List.getElem?_append_left (by simpa using hBound),
        List.getElem?_append_right (by simp), List.length_map, Nat.add_sub_cancel_left, List.getElem?_map, hi]
      rfl
  | field name item ih => exact ih h

/-- Two items of one symbol differ in their fields at most. -/
theorem core_eq_of_itemSymbol {x y : Item} {s : Symbol} (hCount : v.symbolCount < 65536)
    (hx : v.itemSymbol x = .ok s) (hy : v.itemSymbol y = .ok s) : x.core = y.core :=
  Option.some.inj ((items_of_itemSymbol hCount hx).2.symm.trans (items_of_itemSymbol hCount hy).2)

theorem index_lt_of_isToken {item : Item} {s : Symbol} (hCount : v.symbolCount < 65536)
    (hToken : item.IsToken v.tokens) (h : v.itemSymbol item = .ok s) : s.index < v.terminalCount := by
  rw [symbolCount] at hCount
  induction item with
  | symbol name =>
    rcases resolve_eq_ok h with h | ⟨hNone, _⟩
    · obtain ⟨i, hi, rfl⟩ := token?_eq_some h
      have hBound := (List.getElem?_eq_some_iff.mp hi).1
      rw [terminalCount] at hCount ⊢
      rw [Symbol.index_ofIndex (by omega)]
      omega
    · rw [token?, Option.map_eq_none_iff, List.idxOf?_eq_none_iff] at hNone
      exact absurd (show name ∈ v.tokens from hToken) hNone
  | literal text =>
    rw [itemSymbol] at h
    cases hText : v.literal? text with
    | none => rw [hText] at h; cases h
    | some s' =>
      rw [hText] at h
      obtain rfl := Except.ok.inj h
      obtain ⟨i, hi, rfl⟩ := literal?_eq_some hText
      have hBound := (List.getElem?_eq_some_iff.mp hi).1
      rw [terminalCount] at hCount ⊢
      rw [Symbol.index_ofIndex (by omega)]
      omega
  | field name item ih => exact ih hToken h

end Vocabulary

/-- A production without its fields. -/
def LoweredProduction.bare (p : LoweredProduction) : LoweredProduction := { p with fields := [] }

/-- The productions name symbols of the grammar, nonterminals on the left, and never the end of the input. -/
structure LoweredGrammar.Scoped (g : LoweredGrammar) : Prop where
  tokens_pos : 0 < g.tokenCount.toNat
  tokens_le : g.tokenCount.toNat ≤ g.symbols.size
  symbols_lt : g.symbols.size < 65535
  start : g.isTerminal g.start = false ∧ g.start.index < g.symbols.size
  lhs : ∀ p ∈ g.productions, g.isTerminal p.lhs = false ∧ p.lhs.index < g.symbols.size
  rhs : ∀ p ∈ g.productions, ∀ s ∈ p.rhs, 0 < s.index ∧ s.index < g.symbols.size

/-- The productions name symbols of the grammar, of whichever kind. -/
structure LoweredGrammar.InRange (g : LoweredGrammar) : Prop where
  tokens_le : g.tokenCount.toNat ≤ g.symbols.size
  start : g.start.index < g.symbols.size
  lhs : ∀ p ∈ g.productions, p.lhs.index < g.symbols.size
  rhs : ∀ p ∈ g.productions, ∀ s ∈ p.rhs, s.index < g.symbols.size

theorem LoweredGrammar.Scoped.inRange {g : LoweredGrammar} (h : g.Scoped) : g.InRange :=
  ⟨h.tokens_le, h.start.2, fun p hp => (h.lhs p hp).2, fun p hp s hs => (h.rhs p hp s hs).2⟩

namespace Grammar

variable {g : Grammar} {l : LoweredGrammar} {t : Table}

/-- The start symbol is the one that is named, or else the first left-hand side. -/
def StartsWith (g : Grammar) (productions : List LoweredProduction) (start : Symbol) : Prop :=
  (∃ name, g.start = some name ∧ g.vocabulary.resolve name = .ok start) ∨
    (g.start = none ∧ productions.head?.map (·.lhs) = some start)

/-- The lowered grammar of parts that are resolved. -/
def assemble (g : Grammar) (extras externals : List Symbol) (word : Option Symbol)
    (productions : List LoweredProduction) (start : Symbol) : LoweredGrammar :=
  let v := g.vocabulary
  let (named, arena) := addAutomata 1 (g.tokens.map (·.2)) #[]
  let (anonymous, lexNodes) :=
    addAutomata (1 + v.tokens.length) (v.literals.map fun text => .literal text.toList) arena
  { name := g.name
    symbols := (g.symbolInfos v).toArray
    tokenCount := v.terminalCount.toUInt16
    fields := v.fields
    productions := productions.toArray
    lexNodes
    tokenLex := (g.tokenLex v named anonymous).toArray
    extras, externals, start, word }

/-- The steps of lowering, all of which succeeded. -/
structure Lowers (g : Grammar) (l : LoweredGrammar) : Prop where
  declarations : g.declarationFault g.vocabulary = none
  extras : List.Forall₂ (fun name s => g.vocabulary.resolve name = .ok s) g.extras l.extras
  externals : List.Forall₂ (fun name s => g.vocabulary.resolve name = .ok s) g.externals l.externals
  word : g.word.mapM g.vocabulary.resolve = .ok l.word
  productions : ∃ (rules : List LoweredProduction) (repeats : List (List LoweredProduction)),
    List.Forall₂ (fun rule p => g.vocabulary.lowerRule rule = .ok p) g.rules rules ∧
    List.Forall₂ (fun r ps => g.vocabulary.lowerRepeat r = .ok ps) g.repeats repeats ∧
    l.productions = (rules ++ repeats.flatten).toArray ∧ g.StartsWith (rules ++ repeats.flatten) l.start
  symbols : l.symbols = (g.symbolInfos g.vocabulary).toArray
  tokenCount : l.tokenCount = g.vocabulary.terminalCount.toUInt16
  automata : ∃ (named anonymous : List UInt32) (arena : LexArena),
    addAutomata 1 (g.tokens.map (·.2)) #[] = (named, arena) ∧
    addAutomata (1 + g.vocabulary.tokens.length) (g.vocabulary.literals.map fun text => .literal text.toList) arena
      = (anonymous, l.lexNodes) ∧
    l.tokenLex = (g.tokenLex g.vocabulary named anonymous).toArray

theorem bind_eq_ok {α β ε : Type} {x : Except ε α} {f : α → Except ε β} {b : β} (h : x.bind f = .ok b) :
    ∃ a, x = .ok a ∧ f a = .ok b := by
  cases x with
  | error e => cases h
  | ok a => exact ⟨a, rfl, h⟩

theorem lower_eq_ok (h : g.lower = .ok l) : g.Lowers l := by
  simp only [lower] at h
  split at h
  · cases h
  next hDeclarations =>
    obtain ⟨extras, hExtras, h⟩ := bind_eq_ok h
    obtain ⟨externals, hExternals, h⟩ := bind_eq_ok h
    obtain ⟨word, hWord, h⟩ := bind_eq_ok h
    obtain ⟨rules, hRules, h⟩ := bind_eq_ok h
    obtain ⟨repeats, hRepeats, h⟩ := bind_eq_ok h
    -- Whichever symbol is the start, the rest is put together in the same way.
    have hRest (start : Symbol) (hStart : g.StartsWith (rules ++ repeats.flatten) start)
        (hl : l = g.assemble extras externals word (rules ++ repeats.flatten) start) : g.Lowers l := by
      subst hl
      exact ⟨Option.eq_none_iff_forall_ne_some.mpr hDeclarations, mapM_eq_ok hExtras, mapM_eq_ok hExternals, hWord,
        ⟨rules, repeats, mapM_eq_ok hRules, mapM_eq_ok hRepeats, rfl, hStart⟩, rfl, rfl, ⟨_, _, _, rfl, rfl, rfl⟩⟩
    split at h
    next _ _ name hName =>
      obtain ⟨start, hStart, h⟩ := bind_eq_ok h
      exact hRest start (.inl ⟨name, hName, hStart⟩) (Except.ok.inj h).symm
    next p tail hName hProductions =>
      exact hRest p.lhs (.inr ⟨hName, by simp [hProductions]⟩) (Except.ok.inj h).symm
    next =>
      cases h

/-- A table with the steps that led to it. -/
structure Built (g : Grammar) (l : LoweredGrammar) (states : Array LoweredGrammar.ItemState) (t : Table) :
    Prop where
  lower : g.lower = .ok l
  itemStates : l.itemStates = .ok states
  table : t = l.toTable states
  fault : t.fault? = none

theorem build_eq_ok (h : g.build = .ok t) : ∃ l states, g.Built l states t := by
  obtain ⟨l, hLower, h⟩ := bind_eq_ok h
  obtain ⟨states, hStates, h⟩ := bind_eq_ok h
  simp only [Table.validate] at h
  split at h
  next hOk =>
    obtain rfl := Except.ok.inj h
    split at hOk
    · cases hOk
    next hFault => exact ⟨l, states, hLower, hStates, rfl, hFault⟩
  next => cases h

theorem build_of_lower {g : Grammar} {l : LoweredGrammar} {states : Array LoweredGrammar.ItemState}
    (hLower : g.lower = .ok l) (hStates : l.itemStates = .ok states) (hFault : (l.toTable states).fault? = none) :
    g.build = .ok (l.toTable states) := by
  simp only [build, hLower, hStates, bind, Except.bind, Table.validate, hFault]
  rfl

theorem length_symbolInfos (g : Grammar) : (g.symbolInfos g.vocabulary).length = g.vocabulary.symbolCount := by
  simp only [symbolInfos, Vocabulary.symbolCount, Vocabulary.terminalCount, List.length_append, List.length_cons,
    List.length_map]
  omega

theorem lowerRule_eq_ok {v : Vocabulary} {rule : Rule} {p : LoweredProduction} (h : v.lowerRule rule = .ok p) :
    rule.items.mapM v.itemSymbol = .ok p.rhs ∧ v.resolve rule.lhs = .ok p.lhs ∧ p.binaryRepeat = false := by
  obtain ⟨rhs, hRhs, h⟩ := bind_eq_ok h
  obtain ⟨lhs, hLhs, h⟩ := bind_eq_ok h
  obtain rfl := Except.ok.inj h
  exact ⟨hRhs, hLhs, rfl⟩

theorem lowerRule_bare {v : Vocabulary} {rule : Rule} {p : LoweredProduction} (h : v.lowerRule rule = .ok p) :
    ∃ lhs rhs, v.resolve rule.lhs = .ok lhs ∧ rule.items.mapM v.itemSymbol = .ok rhs ∧
      p.bare = ⟨lhs, rhs, [], rule.precedence, rule.assoc, false⟩ := by
  obtain ⟨rhs, hRhs, h⟩ := bind_eq_ok h
  obtain ⟨lhs, hLhs, h⟩ := bind_eq_ok h
  obtain rfl := Except.ok.inj h
  exact ⟨lhs, rhs, hLhs, hRhs, rfl⟩

theorem lowerRepeat_eq_ok {v : Vocabulary} {r : Repetition} {ps : List LoweredProduction}
    (h : v.lowerRepeat r = .ok ps) : ∃ lhs item, v.resolve r.lhs = .ok lhs ∧ v.resolve r.item = .ok item ∧
      ps = [⟨lhs, [lhs, lhs], [], 0, .left, true⟩, ⟨lhs, [item], [], 0, .none, false⟩] := by
  obtain ⟨lhs, hLhs, h⟩ := bind_eq_ok h
  obtain ⟨item, hItem, h⟩ := bind_eq_ok h
  exact ⟨lhs, item, hLhs, hItem, (Except.ok.inj h).symm⟩

/-- The grammar has the rule `lhs -> rhs`, of a rule or of a repetition. -/
def Produces (g : Grammar) (lhs : Symbol) (rhs : List Symbol) : Prop :=
  (∃ rule ∈ g.rules, g.vocabulary.resolve rule.lhs = .ok lhs ∧ rule.items.mapM g.vocabulary.itemSymbol = .ok rhs) ∨
    ∃ r ∈ g.repeats, g.vocabulary.resolve r.lhs = .ok lhs ∧
      (rhs = [lhs, lhs] ∨ ∃ item, g.vocabulary.resolve r.item = .ok item ∧ rhs = [item])

theorem forall₂_mem_left {α β : Type} {R : α → β → Prop} {xs : List α} {ys : List β} (h : List.Forall₂ R xs ys)
    {x : α} (hx : x ∈ xs) : ∃ y ∈ ys, R x y := by
  induction h with
  | nil => cases hx
  | cons hR _ ih =>
    rcases List.mem_cons.mp hx with rfl | hx
    · exact ⟨_, List.mem_cons_self, hR⟩
    · obtain ⟨y, hy, hR⟩ := ih hx
      exact ⟨y, List.mem_cons_of_mem _ hy, hR⟩

theorem forall₂_mem_right {α β : Type} {R : α → β → Prop} {xs : List α} {ys : List β} (h : List.Forall₂ R xs ys)
    {y : β} (hy : y ∈ ys) : ∃ x ∈ xs, R x y :=
  forall₂_mem_left h.flip hy

/-- The lowered productions are the rules of the grammar. -/
theorem Lowers.produces_iff (h : g.Lowers l) {lhs : Symbol} {rhs : List Symbol} :
    g.Produces lhs rhs ↔ ∃ p ∈ l.productions, p.lhs = lhs ∧ p.rhs = rhs := by
  obtain ⟨rules, repeats, hRules, hRepeats, hProductions, _⟩ := h.productions
  simp only [hProductions, List.mem_toArray, List.mem_append, List.mem_flatten]
  constructor
  · rintro (⟨rule, hRule, hLhs, hRhs⟩ | ⟨r, hr, hLhs, hRhs⟩)
    · obtain ⟨p, hp, hLower⟩ := forall₂_mem_left hRules hRule
      obtain ⟨hRhs', hLhs', _⟩ := lowerRule_eq_ok hLower
      exact ⟨p, .inl hp, Except.ok.inj (hLhs'.symm.trans hLhs), Except.ok.inj (hRhs'.symm.trans hRhs)⟩
    · obtain ⟨ps, hps, hLower⟩ := forall₂_mem_left hRepeats hr
      obtain ⟨lhs', item', hLhs', hItem', rfl⟩ := lowerRepeat_eq_ok hLower
      obtain rfl := Except.ok.inj (hLhs'.symm.trans hLhs)
      rcases hRhs with rfl | ⟨item, hItem, rfl⟩
      · exact ⟨_, .inr ⟨_, hps, List.mem_cons_self⟩, rfl, rfl⟩
      · obtain rfl := Except.ok.inj (hItem'.symm.trans hItem)
        exact ⟨_, .inr ⟨_, hps, List.mem_cons_of_mem _ List.mem_cons_self⟩, rfl, rfl⟩
  · rintro ⟨p, hp | ⟨ps, hps, hp⟩, rfl, rfl⟩
    · obtain ⟨rule, hRule, hLower⟩ := forall₂_mem_right hRules hp
      obtain ⟨hRhs, hLhs, _⟩ := lowerRule_eq_ok hLower
      exact .inl ⟨rule, hRule, hLhs, hRhs⟩
    · obtain ⟨r, hr, hLower⟩ := forall₂_mem_right hRepeats hps
      obtain ⟨lhs, item, hLhs, hItem, rfl⟩ := lowerRepeat_eq_ok hLower
      simp only [List.mem_cons, List.not_mem_nil, or_false] at hp
      rcases hp with rfl | rfl
      · exact .inr ⟨r, hr, hLhs, .inl rfl⟩
      · exact .inr ⟨r, hr, hLhs, .inr ⟨item, hItem, rfl⟩⟩

theorem Produces.denotes {lhs : Symbol} {rhs : List Symbol} (h : g.Produces lhs rhs) :
    g.vocabulary.Denotes lhs ∧ ∀ s ∈ rhs, g.vocabulary.Denotes s := by
  rcases h with ⟨rule, _, hLhs, hRhs⟩ | ⟨r, _, hLhs, rfl | ⟨item, hItem, rfl⟩⟩
  · refine ⟨Vocabulary.denotes_of_resolve hLhs, fun s hs => ?_⟩
    obtain ⟨item, _, hItem⟩ := forall₂_mem_right (mapM_eq_ok hRhs) hs
    exact Vocabulary.denotes_of_itemSymbol hItem
  · have hDenotes := Vocabulary.denotes_of_resolve hLhs
    exact ⟨hDenotes, by simp [hDenotes]⟩
  · exact ⟨Vocabulary.denotes_of_resolve hLhs, by simpa using Vocabulary.denotes_of_resolve hItem⟩

/-- A grammar with more symbols than there are numbers names symbols of its table, too: the numbers wrap around. -/
theorem Lowers.inRange (h : g.Lowers l) : l.InRange := by
  have hSize : l.symbols.size = g.vocabulary.symbolCount := by
    rw [h.symbols, List.size_toArray, length_symbolInfos]
  have hIndex {s : Symbol} (hs : g.vocabulary.Denotes s) : s.index < l.symbols.size := by
    rw [hSize]
    by_cases hCount : g.vocabulary.symbolCount < 65536
    · exact (hs.index_lt hCount).2
    · exact Nat.lt_of_lt_of_le s.index_lt (by omega)
  have hProduces (p : LoweredProduction) (hp : p ∈ l.productions) :=
    (h.produces_iff.mpr ⟨p, hp, rfl, rfl⟩).denotes
  refine ⟨?_, hIndex ?_, fun p hp => hIndex (hProduces p hp).1, fun p hp s hs => hIndex ((hProduces p hp).2 s hs)⟩
  · rw [h.tokenCount, hSize, Vocabulary.symbolCount]
    exact (Nat.mod_le _ _).trans (Nat.le_add_right _ _)
  · obtain ⟨rules, repeats, _, _, hProductions, ⟨name, _, hName⟩ | ⟨_, hHead⟩⟩ := h.productions
    · exact Vocabulary.denotes_of_resolve hName
    · obtain ⟨p, hp, hLhs⟩ := Option.map_eq_some_iff.mp hHead
      have hMem : p ∈ l.productions := by
        rw [hProductions, List.mem_toArray]
        exact List.mem_of_mem_head? hp
      exact hLhs ▸ (hProduces p hMem).1

namespace Built

variable {states : Array LoweredGrammar.ItemState} (h : g.Built l states t)
include h

theorem valid : t.Valid := Table.valid_of_fault? h.fault

theorem lowers : g.Lowers l := lower_eq_ok h.lower

theorem size_symbols : l.symbols.size = g.vocabulary.symbolCount := by
  rw [h.lowers.symbols, List.size_toArray, length_symbolInfos]

theorem symbolCount_lt : g.vocabulary.symbolCount < 65535 := by
  have hSymbols := h.valid.symbols_lt
  rw [h.table] at hSymbols
  exact h.size_symbols ▸ hSymbols

theorem tokenCount_eq : l.tokenCount.toNat = g.vocabulary.terminalCount := by
  have hCount := h.symbolCount_lt
  rw [Vocabulary.symbolCount] at hCount
  rw [h.lowers.tokenCount]
  exact Nat.mod_eq_of_lt (by omega)

theorem inScope : l.Scoped where
  tokens_pos := by
    have := h.valid.tokens_pos
    rwa [h.table] at this
  tokens_le := by
    have := h.valid.tokens_le
    rwa [h.table] at this
  symbols_lt := by
    have := h.valid.symbols_lt
    rwa [h.table] at this
  start := by
    have := h.valid.start_nonterminal
    rw [h.table] at this
    simpa [Table.isNonterminal, LoweredGrammar.toTable, Table.isTerminal, LoweredGrammar.isTerminal] using this
  lhs p hp := by
    have := h.valid.lhs_nonterminal (p := ⟨p.lhs, p.rhs.length.toUInt16, p.fields⟩) (by
      rw [h.table]
      exact Array.mem_map.mpr ⟨p, hp, rfl⟩)
    rw [h.table] at this
    simpa [Table.isNonterminal, LoweredGrammar.toTable, Table.isTerminal, LoweredGrammar.isTerminal] using this
  rhs p hp s hs := by
    rw [h.size_symbols]
    have hProduces := h.lowers.produces_iff.mpr ⟨p, hp, rfl, rfl⟩
    exact (hProduces.denotes.2 s hs).index_lt (Nat.lt_of_lt_of_le h.symbolCount_lt (by omega))

end Built

end Grammar
end Reparse
