import Reparse.Proofs.Grammar.Recognition
import Reparse.Proofs.Lex.Bounds
import Reparse.Proofs.Tree.Balanced
/-!
# What a built table never does

The states in which a table may accept, and the symbols that are extras or stand for repetitions.
-/
namespace Reparse

open LoweredGrammar

namespace Grammar.Built

variable {g : Grammar} {l : LoweredGrammar} {states : Array ItemState} {t : Table} (h : g.Built l states t)
include h

theorem tokenCount_table : t.tokenCount.toNat = g.vocabulary.terminalCount := by
  rw [h.table]
  exact h.tokenCount_eq

theorem isTerminal_iff_lt {s : Symbol} : t.isTerminal s = true ↔ s.index < g.vocabulary.terminalCount := by
  rw [Table.isTerminal, decide_eq_true_eq, UInt16.lt_iff_toNat_lt, h.tokenCount_table]
  rfl

/-- What the table says of a symbol, by its kind. -/
theorem info?_cases {s : Symbol} {info : SymbolInfo} (hInfo : t.info? s = some info) :
    (s.index = 0 ∧ info = .endOfInput) ∨
    (∃ name, 0 < s.index ∧ t.isTerminal s = true ∧ info = namedInfo name (g.extras.contains name) false) ∨
    (∃ text, t.isTerminal s = true ∧ info = literalInfo text) ∨
    (∃ name ∈ g.vocabulary.nonterminals, t.isTerminal s = false ∧ info = namedInfo name false (g.isRepetition name)) := by
  have hSymbols : t.symbols = (g.symbolInfos g.vocabulary).toArray := by rw [h.table]; exact h.lowers.symbols
  rw [Table.info?, hSymbols, List.getElem?_toArray, symbolInfos, List.cons_append, List.cons_append] at hInfo
  have hTerminal := h.isTerminal_iff_lt (s := s)
  rw [Vocabulary.terminalCount] at hTerminal
  cases hIndex : s.index with
  | zero =>
    rw [hIndex, List.getElem?_cons_zero, Option.some.injEq] at hInfo
    exact .inl ⟨rfl, hInfo.symm⟩
  | succ i =>
    rw [hIndex, List.getElem?_cons_succ, List.append_assoc] at hInfo
    rw [hIndex] at hTerminal
    rw [List.getElem?_append, List.getElem?_append] at hInfo
    simp only [List.length_map, List.getElem?_map] at hInfo
    split at hInfo
    next hToken =>
      obtain ⟨name, _, rfl⟩ := Option.map_eq_some_iff.mp hInfo
      exact .inr (.inl ⟨name, Nat.succ_pos i, hTerminal.mpr (by omega), rfl⟩)
    split at hInfo
    next hToken hLiteral =>
      obtain ⟨text, _, rfl⟩ := Option.map_eq_some_iff.mp hInfo
      exact .inr (.inr (.inl ⟨text, hTerminal.mpr (by omega), rfl⟩))
    next hToken hLiteral =>
      obtain ⟨name, hName, rfl⟩ := Option.map_eq_some_iff.mp hInfo
      refine .inr (.inr (.inr ⟨name, List.mem_of_getElem? hName, ?_, rfl⟩))
      rw [← Bool.not_eq_true, hTerminal]
      omega

/-- Only tokens are extras. -/
theorem isToken_of_isExtra {s : Symbol} (hExtra : t.isExtra s = true) : t.IsToken s := by
  rw [Table.isExtra] at hExtra
  cases hInfo : t.info? s with
  | none => rw [hInfo] at hExtra; cases hExtra
  | some info =>
    rw [hInfo] at hExtra
    rcases h.info?_cases hInfo with ⟨_, rfl⟩ | ⟨name, hPos, hTerminal, _⟩ | ⟨text, _, rfl⟩ | ⟨name, _, _, rfl⟩
    · cases hExtra
    · refine ⟨hTerminal, ?_⟩
      rintro rfl
      exact absurd hPos (Nat.lt_irrefl 0)
    · cases hExtra
    · cases hExtra

/-- No terminal stands for a repetition. -/
theorem binaryRepeat_eq_none {s : Symbol} (hTerminal : t.isTerminal s = true) : t.binaryRepeat s = none := by
  rw [Table.binaryRepeat]
  cases hInfo : t.info? s with
  | none => rfl
  | some info =>
    rcases h.info?_cases hInfo with ⟨_, rfl⟩ | ⟨name, _, _, rfl⟩ | ⟨text, _, rfl⟩ | ⟨name, _, hNot, _⟩
    · rfl
    · rfl
    · rfl
    · rw [hTerminal] at hNot
      cases hNot

end Grammar.Built

/-! ## Accepting states -/

/-- The first state and those that may accept: nothing below them on a stack is a lone token. -/
def Table.Opens (t : Table) (q : StateId) : Prop := q = 0 ∨ t.action q .eof = some .accept

namespace Grammar.Built

variable {g : Grammar} {l : LoweredGrammar} {states : Array ItemState} {t : Table} {kernels : Array (List LrItem)}
  (h : g.Built l states t) (hAutomaton : l.ItemAutomaton states kernels)
include h hAutomaton

/-- A state that accepts has read the start symbol. -/
theorem start_of_accept {q : StateId} {s : Symbol} (hAccept : t.action q s = some .accept) :
    s = .eof ∧ ⟨l.startRule, 1⟩ ∈ itemsAt states q := by
  obtain ⟨hEof, ⟨production, dot⟩, hItem, hComplete, rfl⟩ := entryAt_accept (h.entryAt_of_action hAutomaton hAccept).2
  have hDot := hAutomaton.dot_eq_length hItem hComplete
  rw [rhs_startRule] at hDot
  exact ⟨hEof, by rwa [show dot = 1 from hDot] at hItem⟩

theorem source_of_opens {q q' : StateId} {s : Symbol} (hEdge : edge? states q s = some q') (hOpens : t.Opens q') :
    s = l.start ∧ q = 0 := by
  rcases hOpens with rfl | hAccept
  · exact absurd rfl (hAutomaton.edge?_ne_zero hEdge)
  · obtain ⟨_, hItem⟩ := h.start_of_accept hAutomaton hAccept
    obtain ⟨⟨production, dot⟩, hSource, hNext, hEq⟩ := hAutomaton.source_of_mem hEdge hItem (.inr rfl)
    simp only [LrItem.advance, LrItem.mk.injEq] at hEq
    obtain ⟨rfl, hDot⟩ := hEq
    obtain rfl : dot = 0 := by omega
    refine ⟨?_, hAutomaton.eq_zero_of_start_mem hSource⟩
    rw [next?, rhs_startRule, List.getElem?_cons_zero, Option.some.injEq] at hNext
    exact hNext.symm

end Grammar.Built

namespace Language

variable {l : Language} {g : Grammar} (h : l.BuiltFrom g)
include h

theorem BuiltFrom.isToken_of_isExtra {s : Symbol} (hExtra : l.isExtra s = true) : l.table.IsToken s := by
  obtain ⟨_, _, hBuilt⟩ := h.built
  exact hBuilt.isToken_of_isExtra hExtra

theorem BuiltFrom.repeatsRules : Subtree.RepeatsRules l := by
  obtain ⟨_, _, hBuilt⟩ := h.built
  intro s hTerminal
  rw [isTerminal, Bool.or_eq_true] at hTerminal
  rcases hTerminal with hError | hTerminal
  · obtain rfl : s = .error := by simpa [Symbol.isError] using hError
    have hBound := h.valid.symbols_lt
    have hIndex : Symbol.error.index = 65535 := rfl
    have hInfo : l.table.info? .error = none := by
      rw [Table.info?]
      exact Array.getElem?_eq_none (by omega)
    rw [Table.binaryRepeat, hInfo]
    rfl
  · exact hBuilt.binaryRepeat_eq_none hTerminal

theorem BuiltFrom.isTerminal_of_action {q : StateId} {s : Symbol} {a : Action} (hAction : l.table.action q s = some a) :
    l.isTerminal s = true := by
  obtain ⟨lowered, states, hBuilt⟩ := h.built
  obtain ⟨kernels, hAutomaton⟩ := itemStates_eq_ok hBuilt.itemStates
  rw [isTerminal, hBuilt.isTerminal_eq, (hBuilt.entryAt_of_action hAutomaton hAction).1, Bool.or_true]

theorem BuiltFrom.eof_of_accept {q : StateId} {s : Symbol} (hAction : l.table.action q s = some .accept) : s = .eof := by
  obtain ⟨lowered, states, hBuilt⟩ := h.built
  obtain ⟨kernels, hAutomaton⟩ := itemStates_eq_ok hBuilt.itemStates
  exact (hBuilt.start_of_accept hAutomaton hAction).1

theorem BuiltFrom.not_isTerminal_start : l.isTerminal l.table.start = false := by
  have hStart := h.valid.start_nonterminal
  have hSize := h.valid.symbols_lt
  simp only [Table.isNonterminal, Bool.and_eq_true, Bool.not_eq_true', decide_eq_true_eq] at hStart
  rw [isTerminal, hStart.1, Bool.or_false]
  by_contra hError
  have hIs : l.table.start = .error := by simpa [Symbol.isError] using hError
  have hIndex : l.table.start.index = 65535 := by rw [hIs]; rfl
  omega

theorem BuiltFrom.ne_eof_of_shift {q q' : StateId} {s : Symbol} (hAction : l.table.action q s = some (.shift q')) :
    s ≠ .eof := by
  obtain ⟨lowered, states, hBuilt⟩ := h.built
  obtain ⟨kernels, hAutomaton⟩ := itemStates_eq_ok hBuilt.itemStates
  rintro rfl
  exact action_eof_ne_shift hBuilt hAutomaton hAction

/-- A shift leads neither to the first state nor to one that accepts. -/
theorem BuiltFrom.not_opens_of_shift {q q' : StateId} {s : Symbol} (hAction : l.table.action q s = some (.shift q')) :
    ¬l.table.Opens q' := by
  obtain ⟨lowered, states, hBuilt⟩ := h.built
  obtain ⟨kernels, hAutomaton⟩ := itemStates_eq_ok hBuilt.itemStates
  obtain ⟨hTerminal, hEntry⟩ := hBuilt.entryAt_of_action hAutomaton hAction
  intro hOpens
  obtain ⟨rfl, _⟩ := hBuilt.source_of_opens hAutomaton (entryAt_shift hEntry) hOpens
  rw [hBuilt.inScope.start.1] at hTerminal
  cases hTerminal

/-- A goto leads to a state that accepts only from the first one. -/
theorem BuiltFrom.opens_of_goto {q q' : StateId} {s : Symbol} (hGoto : l.table.goto q s = some q')
    (hOpens : l.table.Opens q') : l.table.Opens q := by
  obtain ⟨lowered, states, hBuilt⟩ := h.built
  obtain ⟨kernels, hAutomaton⟩ := itemStates_eq_ok hBuilt.itemStates
  exact .inl (hBuilt.source_of_opens hAutomaton (hBuilt.edge?_of_goto hGoto) hOpens).2

/-- Wherever a nonterminal leads, if it leads nowhere the state stays. -/
theorem BuiltFrom.opens_of_getD {q : StateId} {s : Symbol} (hOpens : l.table.Opens ((l.table.goto q s).getD q)) :
    l.table.Opens q := by
  cases hGoto : l.table.goto q s with
  | none => rwa [hGoto] at hOpens
  | some q' =>
    rw [hGoto] at hOpens
    exact h.opens_of_goto hGoto hOpens

theorem BuiltFrom.ne_eof_of_nonterminal {s : Symbol} (hs : l.table.isNonterminal s = true) : s ≠ .eof := by
  rintro rfl
  have hPos := h.valid.tokens_pos
  simp only [Table.isNonterminal, Table.isTerminal, Bool.and_eq_true, Bool.not_eq_true', decide_eq_false_iff_not,
    UInt16.lt_iff_toNat_lt] at hs
  exact hs.1 hPos

theorem BuiltFrom.start_ne_eof : l.table.start ≠ .eof := h.ne_eof_of_nonterminal h.valid.start_nonterminal

theorem BuiltFrom.lhs_ne_eof (id : ProductionId) : (l.table.production id).lhs ≠ .eof := by
  rw [Table.production]
  cases hProduction : l.table.productions[id.toNat]? with
  | none => simp [Symbol.error, Symbol.eof]
  | some p => exact h.ne_eof_of_nonterminal (h.valid.lhs_nonterminal (Array.mem_of_getElem? hProduction))

end Language
end Reparse
