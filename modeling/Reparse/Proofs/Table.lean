import Reparse.Lex.Match
import Reparse.Proofs.Grammar.Lowering
/-!
# References of a valid table

A table that passes the check has rows of the right length, and whatever one part of it refers to is there. A node whose
references are there may take the place of another.
-/
namespace Reparse.Table

variable {t : Table}

theorem valid_of_validate (h : t.validate = .ok ()) : t.Valid := by
  apply valid_of_fault?
  rw [validate] at h
  split at h
  · cases h
  next hNone => exact hNone

theorem validate_of_valid (h : t.Valid) : t.validate = .ok () := by
  have hNone : t.fault? = none := by
    simp only [fault?, Option.orElse_eq_orElse, Option.orElse_eq_or, Option.or_eq_none_iff,
      List.findSome?_eq_none_iff, Array.mem_toList_iff]
    exact ⟨h.dimensions, h.productions, h.actions, h.gotos, h.lex, h.keywords, h.extras⟩
  rw [validate, hNone]

/-- The table with another automaton node in place of one of its own. -/
def withNode (t : Table) (i : Nat) (node : LexNode) : Table := { t with lexNodes := t.lexNodes.setIfInBounds i node }

theorem isTerminal_iff {s : Symbol} : t.isTerminal s = true ↔ s.index < t.tokenCount.toNat := by
  rw [isTerminal, decide_eq_true_eq, UInt16.lt_iff_toNat_lt]
  rfl

/-- What the links of a repetition are made by. -/
theorem binaryRepeat_eq_some (hCount : t.productions.size < 65535) {s : Symbol} {id : ProductionId}
    (h : t.binaryRepeat s = some id) : (t.info? s).any (·.repetition) = true ∧ id ≠ noProduction ∧
      ∃ p, t.productions[id.toNat]? = some p ∧ p.lhs = s ∧ p.childCount = 2 := by
  rw [binaryRepeat] at h
  split at h
  next hRepetition =>
    obtain ⟨i, hIndex, rfl⟩ := Option.map_eq_some_iff.mp h
    obtain ⟨hBound, hFound, -⟩ := Array.findIdx?_eq_some_iff_getElem.mp hIndex
    have hId : i.toUInt16.toNat = i := Nat.mod_eq_of_lt (by omega)
    rw [Bool.and_eq_true, beq_iff_eq, beq_iff_eq] at hFound
    refine ⟨hRepetition, ?_, t.productions[i], by rw [hId, Array.getElem?_eq_getElem hBound], hFound⟩
    intro hNone
    have hLast : noProduction.toNat = 65535 := rfl
    rw [← hNone, hId] at hLast
    omega
  next => cases h

/-- An entry of a row lies before the next row. -/
theorem row_lt {row rows column columns : Nat} (hRow : row < rows) (hColumn : column < columns) :
    row * columns + column < rows * columns :=
  calc
    row * columns + column < row * columns + columns := Nat.add_lt_add_left hColumn _
    _ = (row + 1) * columns := (Nat.succ_mul row columns).symm
    _ ≤ rows * columns := Nat.mul_le_mul_right columns hRow

namespace Valid

variable (h : t.Valid)
include h

/-! ## Rows -/

theorem size_actions : t.actions.size = t.stateCount.toNat * t.tokenCount.toNat := by
  have hNone := h.dimensions
  simp only [dimensionFault, guard_eq_none, not_not] at hNone
  exact hNone.2.2.2.1

theorem size_gotos : t.gotos.size = t.stateCount.toNat * (t.symbols.size - t.tokenCount.toNat) := by
  have hNone := h.dimensions
  simp only [dimensionFault, guard_eq_none, not_not] at hNone
  exact hNone.2.2.2.2.1

theorem actions_row_lt {q : StateId} {s : Symbol} (hState : q < t.stateCount) (hTerminal : t.isTerminal s = true) :
    q.toNat * t.tokenCount.toNat + s.index < t.actions.size := by
  rw [h.size_actions]
  exact row_lt (UInt16.lt_iff_toNat_lt.mp hState) (isTerminal_iff.mp hTerminal)

theorem gotos_row_lt {q : StateId} {s : Symbol} (hState : q < t.stateCount) (hNonterminal : t.isNonterminal s = true) :
    q.toNat * t.nonterminalCount + (s.index - t.tokenCount.toNat) < t.gotos.size := by
  rw [h.size_gotos]
  simp only [isNonterminal, Bool.and_eq_true, Bool.not_eq_true', decide_eq_true_eq] at hNonterminal
  obtain ⟨hNot, hBound⟩ := hNonterminal
  have hColumn : ¬s.index < t.tokenCount.toNat := by
    intro hLess
    rw [isTerminal_iff.mpr hLess] at hNot
    cases hNot
  exact row_lt (UInt16.lt_iff_toNat_lt.mp hState) (by rw [nonterminalCount]; omega)

theorem tokenLex_lt {s : Symbol} (hTerminal : t.isTerminal s = true) : s.index < t.tokenLex.size := by
  rw [h.size_tokenLex]
  exact isTerminal_iff.mp hTerminal

/-! ## Entries -/

theorem actionFault_of_action {q : StateId} {s : Symbol} {a : Action} (hAction : t.action q s = some a) :
    t.actionFault (some a) = none := by
  rw [action] at hAction
  split at hAction
  · exact h.actions _ (Array.mem_of_getElem? (Option.join_eq_some_iff.mp hAction))
  · cases hAction

theorem shift_lt {q next : StateId} {s : Symbol} (hAction : t.action q s = some (.shift next)) : next < t.stateCount := by
  have hNone := h.actionFault_of_action hAction
  simpa [actionFault] using hNone

theorem reduce_lt {q : StateId} {s : Symbol} {id : ProductionId} (hAction : t.action q s = some (.reduce id)) :
    id.toNat < t.productions.size := by
  have hNone := h.actionFault_of_action hAction
  simpa [actionFault] using hNone

theorem goto_lt {q next : StateId} {s : Symbol} (hGoto : t.goto q s = some next) : next < t.stateCount := by
  rw [goto] at hGoto
  split at hGoto
  · cases hGoto
  · have hNone := h.gotos _ (Array.mem_of_getElem? (Option.join_eq_some_iff.mp hGoto))
    simpa [gotoFault] using hNone

theorem zero_lt : 0 < t.stateCount := UInt16.lt_iff_toNat_lt.mpr h.states_pos

/-! ## Automata -/

theorem lexNodeFits_of_mem {node : LexNode} (hNode : node ∈ t.lexNodes) : t.lexNodeFits node = true := by
  have hNone := h.lex
  simp only [lexFault, guard_eq_none, Bool.not_eq_true', Bool.not_eq_false, Array.all_eq_true_iff_forall_mem] at hNone
  exact hNone.1 node hNode

theorem withNode {node : LexNode} (hFits : t.lexNodeFits node = true) (i : Nat) : (t.withNode i node).Valid where
  dimensions := h.dimensions
  productions := h.productions
  actions := h.actions
  gotos := h.gotos
  keywords := h.keywords
  extras := h.extras
  lex := by
    have hSize : (t.withNode i node).lexNodes.size = t.lexNodes.size := Array.size_setIfInBounds
    have hSame : (t.withNode i node).lexNodeFits = t.lexNodeFits := by
      funext other
      cases other with
      | chars => simp only [lexNodeFits, hSize]
      | split => simp only [lexNodeFits, hSize]
      | accept => rfl
    have hNone := h.lex
    simp only [lexFault, guard_eq_none, Bool.not_eq_true', Bool.not_eq_false, Array.all_eq_true_iff_forall_mem] at hNone ⊢
    obtain ⟨hAll, hStarts⟩ := hNone
    refine ⟨fun other hOther => ?_, hSize ▸ hStarts⟩
    rw [hSame]
    rcases Array.mem_or_eq_of_mem_setIfInBounds hOther with hOld | rfl
    · exact hAll other hOld
    · exact hFits

theorem start_lt {s : Symbol} {first : UInt32} (hStart : (t.lexOf s).start = some first) :
    first.toNat < t.lexNodes.size := by
  have hNone := h.lex
  simp only [lexFault, guard_eq_none] at hNone
  have hTokens := hNone.2.1
  rw [lexOf] at hStart
  cases hLex : t.tokenLex[s.index]? with
  | none => rw [hLex] at hStart; cases hStart
  | some lex =>
    rw [hLex, Option.getD_some] at hStart
    simp only [Array.any_eq_true', not_exists, not_and] at hTokens
    have hFirst := hTokens lex (Array.mem_of_getElem? hLex)
    rw [hStart] at hFirst
    simpa using hFirst

theorem split_lt {n : UInt32} {a b : UInt32} (hNode : t.lexNodes[n.toNat]? = some (.split a b)) :
    a.toNat < t.lexNodes.size ∧ b.toNat < t.lexNodes.size := by
  have hFits := h.lexNodeFits_of_mem (Array.mem_of_getElem? hNode)
  simpa [lexNodeFits] using hFits

theorem next_lt {c : Char} {n next : UInt32} (hAfter : t.lexNodes.after? c n = some next) :
    next.toNat < t.lexNodes.size := by
  rw [LexArena.after?] at hAfter
  split at hAfter
  next cls target hNode =>
    have hFits := h.lexNodeFits_of_mem (Array.mem_of_getElem? hNode)
    simp only [lexNodeFits, Bool.and_eq_true, decide_eq_true_eq] at hFits
    split at hAfter
    · cases hAfter
      exact hFits.2
    · cases hAfter
  next => cases hAfter

theorem accepted_terminal {n : UInt32} {s : Symbol} (hAccepted : t.lexNodes.accepted? n = some s) :
    t.isTerminal s = true := by
  rw [LexArena.accepted?] at hAccepted
  split at hAccepted
  next hNode =>
    cases hAccepted
    exact h.lexNodeFits_of_mem (Array.mem_of_getElem? hNode)
  next => cases hAccepted

end Valid

/-- One word, which greets. -/
def greeting : Table where
  name := "greeting"
  symbols := #[.endOfInput, ⟨"hi", true, false, false, false⟩, ⟨"s", true, true, false, false⟩]
  tokenCount := 2
  fields := #["what"]
  productions := #[⟨⟨2⟩, 1, [(0, 0)]⟩]
  stateCount := 3
  actions := #[none, some (.shift 1), some (.reduce 0), none, some .accept, none]
  gotos := #[some 2, none, none]
  lexNodes := #[.accept ⟨1⟩, .chars ⟨#[('i', 'i')], false⟩ 0, .chars ⟨#[('h', 'h')], false⟩ 1]
  tokenLex := #[.none, ⟨some 2, true, false⟩]
  extras := []
  externals := []
  start := ⟨2⟩
  word := none

end Reparse.Table
