import Reparse.Proofs.Grammar.Driving
/-!
# The automaton of infix operators

The grammar with the productions `S -> E`, `E -> a` and, for each of some operators, `E -> E o E`. What the
items of a state are depends on where it stands: before or after an operand, and of which operator that is
the right operand, if of any. So do its entries: between an operator that has been read and the next one,
precedence and associativity decide.
-/
namespace Reparse

/-- A binary operator: what stands for it, how tight it binds, and on which side one of the same precedence
may stand below it. -/
structure Operator (α : Type) where
  token : α
  precedence : Int
  assoc : Assoc
  deriving DecidableEq, Repr

namespace Operator

variable {α : Type}

/-- `inner` may be the operand of `outer` on this side: it binds tighter, or as tight and to this side. -/
def Tighter (side : Assoc) (outer inner : Operator α) : Prop :=
  outer.precedence < inner.precedence ∨ (outer.precedence = inner.precedence ∧ inner.assoc = side)

/-- Every operator has a side, and those of one precedence have the same. -/
structure Sided (ops : List (Operator α)) : Prop where
  assoc : ∀ o ∈ ops, o.assoc = .left ∨ o.assoc = .right
  agree : ∀ o ∈ ops, ∀ o' ∈ ops, o.precedence = o'.precedence → o.assoc = o'.assoc

/-- Of two operators in a row, either the second is in the right operand of the first or the first in the left
operand of the second. -/
theorem Sided.tighter_or {ops : List (Operator α)} (h : Sided ops) {first second : Operator α}
    (hFirst : first ∈ ops) (hSecond : second ∈ ops) :
    Tighter .left second first ∨ Tighter .right first second := by
  rcases Int.lt_trichotomy first.precedence second.precedence with hLt | hEq | hLt
  · exact .inr (.inl hLt)
  · rcases h.assoc first hFirst with hLeft | hRight
    · exact .inl (.inr ⟨hEq.symm, hLeft⟩)
    · exact .inr (.inr ⟨hEq, (h.agree first hFirst second hSecond hEq).symm.trans hRight⟩)
  · exact .inl (.inl hLt)

end Operator

namespace LoweredGrammar

variable {S E a : Symbol} {ops : List (Operator Symbol)} {g : LoweredGrammar}

/-- The production of the whole text, that of the atom, and those of the operators in their order. -/
def infixProductions (S E a : Symbol) (ops : List (Operator Symbol)) : List LoweredProduction :=
  ⟨S, [E], [], 0, .none, false⟩ :: ⟨E, [a], [], 0, .none, false⟩ ::
    ops.map fun o => ⟨E, [E, o.token, E], [], o.precedence, o.assoc, false⟩

/-- The grammar of some infix operators, apart from fields. -/
structure Infix (g : LoweredGrammar) (S E a : Symbol) (ops : List (Operator Symbol)) : Prop extends g.Scoped where
  productions : g.productions.toList.map LoweredProduction.bare = infixProductions S E a ops
  start_eq : g.start = S
  distinct : S ≠ E
  atom : g.isTerminal a = true
  tokens : ∀ o ∈ ops, g.isTerminal o.token = true
  nodup : (ops.map (·.token)).Nodup
  sided : Operator.Sided ops

namespace Infix

variable (h : g.Infix S E a ops)
include h

/-! ## Productions -/

theorem size : g.productions.size = ops.length + 2 := by
  have hLength := congrArg List.length h.productions
  simpa [infixProductions] using hLength

theorem startRule_eq : g.startRule = ops.length + 2 := h.size

theorem production_of_bare {k : Nat} {p : LoweredProduction} (hp : (infixProductions S E a ops)[k]? = some p) :
    ∃ p', g.productions[k]? = some p' ∧ p'.bare = p := by
  rw [← h.productions, List.getElem?_map, Array.getElem?_toList] at hp
  exact Option.map_eq_some_iff.mp hp

theorem production_zero : ∃ p, g.productions[0]? = some p ∧ p.bare = ⟨S, [E], [], 0, .none, false⟩ :=
  h.production_of_bare rfl

theorem production_one : ∃ p, g.productions[1]? = some p ∧ p.bare = ⟨E, [a], [], 0, .none, false⟩ :=
  h.production_of_bare rfl

theorem production_operator (i : Fin ops.length) : ∃ p, g.productions[i.val + 2]? = some p ∧
    p.bare = ⟨E, [E, (ops.get i).token, E], [], (ops.get i).precedence, (ops.get i).assoc, false⟩ :=
  h.production_of_bare (by simp [infixProductions])

theorem production_cases {k : Nat} {p : LoweredProduction} (hp : g.productions[k]? = some p) :
    (k = 0 ∧ p.bare = ⟨S, [E], [], 0, .none, false⟩) ∨ (k = 1 ∧ p.bare = ⟨E, [a], [], 0, .none, false⟩) ∨
      ∃ i : Fin ops.length, k = i.val + 2 ∧
        p.bare = ⟨E, [E, (ops.get i).token, E], [], (ops.get i).precedence, (ops.get i).assoc, false⟩ := by
  have hBound := (Array.getElem?_eq_some_iff.mp hp).1
  rw [h.size] at hBound
  match k with
  | 0 =>
    obtain ⟨p', hp', hBare⟩ := h.production_zero
    exact .inl ⟨rfl, Option.some.inj (hp.symm.trans hp') ▸ hBare⟩
  | 1 =>
    obtain ⟨p', hp', hBare⟩ := h.production_one
    exact .inr (.inl ⟨rfl, Option.some.inj (hp.symm.trans hp') ▸ hBare⟩)
  | k + 2 =>
    obtain ⟨p', hp', hBare⟩ := h.production_operator ⟨k, by omega⟩
    exact .inr (.inr ⟨⟨k, by omega⟩, rfl, Option.some.inj (hp.symm.trans hp') ▸ hBare⟩)

theorem rhs_zero : g.rhs 0 = [E] := by
  obtain ⟨p, hp, hBare⟩ := h.production_zero
  exact (rhs_of_production hp).trans (congrArg LoweredProduction.rhs hBare)

theorem rhs_one : g.rhs 1 = [a] := by
  obtain ⟨p, hp, hBare⟩ := h.production_one
  exact (rhs_of_production hp).trans (congrArg LoweredProduction.rhs hBare)

theorem rhs_operator (i : Fin ops.length) : g.rhs (i.val + 2) = [E, (ops.get i).token, E] := by
  obtain ⟨p, hp, hBare⟩ := h.production_operator i
  exact (rhs_of_production hp).trans (congrArg LoweredProduction.rhs hBare)

theorem rhs_last : g.rhs (ops.length + 2) = [S] := by
  rw [← h.startRule_eq, rhs_startRule, h.start_eq]

/-! ## Symbols -/

theorem start_nonterminal : g.isTerminal S = false := h.start_eq ▸ h.start.1

theorem operand_lhs : g.isTerminal E = false ∧ E.index < g.symbols.size := by
  obtain ⟨p, hp, hBare⟩ := h.production_one
  have hLhs : p.lhs = E := congrArg LoweredProduction.lhs hBare
  exact hLhs ▸ h.lhs p (Array.mem_of_getElem? hp)

theorem operand_nonterminal : g.isTerminal E = false := h.operand_lhs.1

theorem operand_index_lt : E.index < g.symbols.size := h.operand_lhs.2

theorem token_terminal (i : Fin ops.length) : g.isTerminal (ops.get i).token = true :=
  h.tokens _ (List.get_mem ops i)

omit h in
theorem ne_of_terminal {s s' : Symbol} (hs : g.isTerminal s = true) (hs' : g.isTerminal s' = false) : s ≠ s' := by
  rintro rfl
  simp [hs] at hs'

theorem token_inj {i j : Fin ops.length} (hEq : (ops.get i).token = (ops.get j).token) : i = j := by
  have hOperator := List.inj_on_of_nodup_map h.nodup (List.get_mem ops i) (List.get_mem ops j) hEq
  exact List.nodup_iff_injective_get.mp (.of_map _ h.nodup) hOperator

/-- There are more symbols than productions, so that every production has a number. -/
theorem size_lt : g.productions.size < 65535 := by
  have hToken : ∀ o ∈ ops, o.token.index < g.symbols.size := fun o ho =>
    Nat.lt_of_lt_of_le (isTerminal_iff.mp (h.tokens o ho)) h.tokens_le
  have hNodup : (S :: E :: ops.map (·.token)).Nodup := by
    have hNot (s : Symbol) (hs : g.isTerminal s = false) : s ∉ ops.map (·.token) := by
      simp only [List.mem_map, not_exists, not_and]
      rintro o ho rfl
      simp [h.tokens o ho] at hs
    simp [List.nodup_cons, h.nodup, h.distinct, hNot S h.start_nonterminal, hNot E h.operand_nonterminal]
  have hIndices : ((S :: E :: ops.map (·.token)).map Symbol.index) ⊆ List.range g.symbols.size := by
    intro i hi
    obtain ⟨s, hs, rfl⟩ := List.mem_map.mp hi
    simp only [List.mem_cons, List.mem_map] at hs
    rw [List.mem_range]
    rcases hs with rfl | rfl | ⟨o, ho, rfl⟩
    · exact h.start_eq ▸ h.start.2
    · exact h.operand_index_lt
    · exact hToken o ho
  have hLength := ((hNodup.map fun _ _ => Symbol.index_inj.mp).subperm hIndices).length_le
  have hSymbols := h.symbols_lt
  simp only [List.map_cons, List.map_map, List.length_cons, List.length_map, List.length_range] at hLength
  rw [h.size]
  omega

end Infix

/-! ## The items of a state -/

/-- Where an operand stands: as the whole text, or on the right of an operator. -/
abbrev Slot (ops : List (Operator Symbol)) := Option (Fin ops.length)

/-- The production that the operand belongs to, with the dot before it. -/
def opening : Slot ops → LrItem
  | none => ⟨0, 0⟩
  | some i => ⟨i.val + 2, 2⟩

/-- The production that the operand belongs to, with the dot after it. -/
def closing (c : Slot ops) : LrItem := (opening c).advance

/-- The items before an operand. -/
inductive Before (ops : List (Operator Symbol)) (c : Slot ops) : LrItem → Prop
  | start : c = none → Before ops c ⟨ops.length + 2, 0⟩
  | opening : Before ops c (opening c)
  | atom : Before ops c ⟨1, 0⟩
  | operator (i : Fin ops.length) : Before ops c ⟨i.val + 2, 0⟩

/-- The items after an operand. -/
inductive After (ops : List (Operator Symbol)) (c : Slot ops) : LrItem → Prop
  | closing : After ops c (closing c)
  | operator (i : Fin ops.length) : After ops c ⟨i.val + 2, 1⟩

/-- The items of the state are those with the property. -/
def HasItems (states : Array ItemState) (q : StateId) (P : LrItem → Prop) : Prop :=
  ∀ item, item ∈ itemsAt states q ↔ P item

/-- What an edge leads to, where no nonterminal comes after a dot. -/
theorem items_of_kernel {states : Array ItemState} {kernels : Array (List LrItem)} {q q' : StateId} {s : Symbol}
    {P : LrItem → Prop} (hAutomaton : g.ItemAutomaton states kernels) (hEdge : edge? states q s = some q')
    (hKernel : ∀ item, item ∈ g.kernelAfter (itemsAt states q) s ↔ P item)
    (hTerm : ∀ item, P item → ∀ x, g.next? item = some x → g.isTerminal x = true) : HasItems states q' P := by
  intro item
  rw [hAutomaton.itemsAt_edge? hEdge, closure_eq_self fun item hItem => hTerm item ((hKernel item).mp hItem), hKernel]

namespace Infix

variable (h : g.Infix S E a ops)
include h

theorem next?_opening (c : Slot ops) : g.next? (opening c) = some E := by
  cases c with
  | none => simp [next?, opening, h.rhs_zero]
  | some i => simp [next?, opening, h.rhs_operator]

theorem next?_closing (c : Slot ops) : g.next? (closing c) = none := by
  cases c with
  | none => simp [next?, closing, opening, LrItem.advance, h.rhs_zero]
  | some i => simp [next?, closing, opening, LrItem.advance, h.rhs_operator]

theorem next?_atom : g.next? ⟨1, 0⟩ = some a := by simp [next?, h.rhs_one]

theorem next?_left (i : Fin ops.length) : g.next? ⟨i.val + 2, 0⟩ = some E := by simp [next?, h.rhs_operator]

theorem next?_token (i : Fin ops.length) : g.next? ⟨i.val + 2, 1⟩ = some (ops.get i).token := by
  simp [next?, h.rhs_operator]

theorem next?_start : g.next? ⟨ops.length + 2, 0⟩ = some S := by simp [next?, h.rhs_last]

theorem initialItems_cases {s : Symbol} {item : LrItem} (hItem : item ∈ g.initialItems s) :
    (s = S ∧ item = ⟨0, 0⟩) ∨
      (s = E ∧ (item = ⟨1, 0⟩ ∨ ∃ i : Fin ops.length, item = ⟨i.val + 2, 0⟩)) := by
  obtain ⟨production, dot⟩ := item
  obtain ⟨p, hp, rfl, rfl⟩ := mem_initialItems.mp hItem
  rcases h.production_cases hp with ⟨rfl, hBare⟩ | ⟨rfl, hBare⟩ | ⟨i, rfl, hBare⟩
  · exact .inl ⟨congrArg LoweredProduction.lhs hBare, rfl⟩
  · exact .inr ⟨congrArg LoweredProduction.lhs hBare, .inl rfl⟩
  · exact .inr ⟨congrArg LoweredProduction.lhs hBare, .inr ⟨i, rfl⟩⟩

theorem start_mem_initialItems : ⟨0, 0⟩ ∈ g.initialItems S := by
  obtain ⟨p, hp, hBare⟩ := h.production_zero
  exact mem_initialItems.mpr ⟨p, hp, congrArg LoweredProduction.lhs hBare, rfl⟩

theorem atom_mem_initialItems : ⟨1, 0⟩ ∈ g.initialItems E := by
  obtain ⟨p, hp, hBare⟩ := h.production_one
  exact mem_initialItems.mpr ⟨p, hp, congrArg LoweredProduction.lhs hBare, rfl⟩

theorem operator_mem_initialItems (i : Fin ops.length) : ⟨i.val + 2, 0⟩ ∈ g.initialItems E := by
  obtain ⟨p, hp, hBare⟩ := h.production_operator i
  exact mem_initialItems.mpr ⟨p, hp, congrArg LoweredProduction.lhs hBare, rfl⟩

/-- The start symbol stands in the start rule only. -/
theorem start_not_mem_rhs {p : LoweredProduction} (hp : p ∈ g.productions) : S ∉ p.rhs := by
  obtain ⟨k, hk⟩ := Array.mem_iff_getElem?.mp hp
  have hOperand := h.distinct
  have hAtom := ne_of_terminal h.atom h.start_nonterminal
  rcases h.production_cases hk with ⟨_, hBare⟩ | ⟨_, hBare⟩ | ⟨i, _, hBare⟩
  all_goals
    have hRhs := congrArg LoweredProduction.rhs hBare
    simp only [LoweredProduction.bare] at hRhs
    rw [hRhs]
  · simpa using hOperand
  · simpa using hAtom.symm
  · simpa [hOperand] using (ne_of_terminal (h.token_terminal i) h.start_nonterminal).symm

theorem production_eq_of_next_start {item : LrItem} (hNext : g.next? item = some S) :
    item.production = g.startRule := by
  by_contra hNot
  have hMem := List.mem_of_getElem? hNext
  rw [rhs, if_neg hNot] at hMem
  cases hp : g.productions[item.production]? with
  | none => simp [hp] at hMem
  | some p =>
    simp only [hp, Option.map_some, Option.getD_some] at hMem
    exact h.start_not_mem_rhs (Array.mem_of_getElem? hp) hMem

/-! ## The states -/

variable {states : Array ItemState} {kernels : Array (List LrItem)} (hAutomaton : g.ItemAutomaton states kernels)
  {q q' : StateId} {c : Slot ops}

include hAutomaton

theorem begins_of_mem {item : LrItem} (hItem : item ∈ itemsAt states q) (hNext : g.next? item = some E) :
    ⟨1, 0⟩ ∈ itemsAt states q ∧ ∀ i : Fin ops.length, ⟨i.val + 2, 0⟩ ∈ itemsAt states q :=
  ⟨hAutomaton.expand hItem hNext h.operand_nonterminal h.atom_mem_initialItems,
    fun i => hAutomaton.expand hItem hNext h.operand_nonterminal (h.operator_mem_initialItems i)⟩

theorem items_zero : HasItems states 0 (Before ops none) := by
  have hStart : ⟨ops.length + 2, 0⟩ ∈ itemsAt states 0 := h.startRule_eq ▸ hAutomaton.start_mem
  have hOpening : opening (none : Slot ops) ∈ itemsAt states 0 :=
    hAutomaton.expand hStart h.next?_start h.start_nonterminal h.start_mem_initialItems
  obtain ⟨hAtom, hOperator⟩ := h.begins_of_mem hAutomaton hOpening (h.next?_opening none)
  intro item
  constructor
  · intro hItem
    rw [hAutomaton.itemsAt_zero] at hItem
    rcases origin_of_mem_closure hItem with hKernel | ⟨s, hInitial, _⟩
    · rw [List.mem_singleton.mp hKernel, h.startRule_eq]
      exact .start rfl
    · rcases h.initialItems_cases hInitial with ⟨_, rfl⟩ | ⟨_, rfl | ⟨i, rfl⟩⟩
      · exact .opening
      · exact .atom
      · exact .operator i
  · rintro (_ | _ | _ | i)
    · exact hStart
    · exact hOpening
    · exact hAtom
    · exact hOperator i

/-- Over an operand the automaton comes to stand after it. -/
theorem items_operand (hq : HasItems states q (Before ops c)) (hEdge : edge? states q E = some q') :
    HasItems states q' (After ops c) := by
  refine items_of_kernel hAutomaton hEdge (fun item => ?_) ?_
  · rw [mem_kernelAfter]
    constructor
    · rintro ⟨source, hSource, hNext, rfl⟩
      rcases (hq source).mp hSource with _ | _ | _ | i
      · exact absurd (Option.some.inj (h.next?_start.symm.trans hNext)) h.distinct
      · exact .closing
      · exact absurd (Option.some.inj (h.next?_atom.symm.trans hNext)) (ne_of_terminal h.atom h.operand_nonterminal)
      · exact .operator i
    · rintro (_ | i)
      · exact ⟨opening c, (hq _).mpr .opening, h.next?_opening c, rfl⟩
      · exact ⟨⟨i.val + 2, 0⟩, (hq _).mpr (.operator i), h.next?_left i, rfl⟩
  · rintro item (_ | i) s hNext
    · rw [h.next?_closing c] at hNext
      cases hNext
    · exact Option.some.inj ((h.next?_token i).symm.trans hNext) ▸ h.token_terminal i

/-- Over an operator the automaton comes to stand before its right operand. -/
theorem items_operator (hq : HasItems states q (After ops c)) {i : Fin ops.length}
    (hEdge : edge? states q (ops.get i).token = some q') : HasItems states q' (Before ops (some i)) := by
  have hKernel (item : LrItem) :
      item ∈ g.kernelAfter (itemsAt states q) (ops.get i).token ↔ item = opening (some i) := by
    rw [mem_kernelAfter]
    constructor
    · rintro ⟨source, hSource, hNext, rfl⟩
      rcases (hq source).mp hSource with _ | j
      · rw [h.next?_closing c] at hNext
        cases hNext
      · rw [h.token_inj (Option.some.inj ((h.next?_token j).symm.trans hNext))]
        rfl
    · rintro rfl
      exact ⟨⟨i.val + 2, 1⟩, (hq _).mpr (.operator i), h.next?_token i, rfl⟩
  have hItems := hAutomaton.itemsAt_edge? hEdge
  have hOpening : opening (some i) ∈ itemsAt states q' := hItems ▸ mem_closure_of_mem ((hKernel _).mpr rfl)
  obtain ⟨hAtom, hOperator⟩ := h.begins_of_mem hAutomaton hOpening (h.next?_opening (some i))
  intro item
  constructor
  · intro hItem
    rw [hItems] at hItem
    rcases origin_of_mem_closure hItem with hMem | ⟨s, hInitial, _, source, hSource, hNext⟩
    · rw [(hKernel item).mp hMem]
      exact .opening
    · rcases h.initialItems_cases hInitial with ⟨rfl, _⟩ | ⟨_, rfl | ⟨j, rfl⟩⟩
      · -- The start rule does not begin here.
        have hRule := h.production_eq_of_next_start hNext
        have hSourceEq := (hKernel source).mp (mem_kernel_of_mem_closure hSource (.inr hRule))
        rw [hSourceEq, h.startRule_eq, opening] at hRule
        have := i.isLt
        simp only at hRule
        omega
      · exact .atom
      · exact .operator j
  · rintro (hNone | _ | _ | j)
    · cases hNone
    · exact hOpening
    · exact hAtom
    · exact hOperator j

theorem items_atom (hq : HasItems states q (Before ops c)) (hEdge : edge? states q a = some q') :
    HasItems states q' (· = ⟨1, 1⟩) := by
  have hOperand := ne_of_terminal h.atom h.operand_nonterminal
  refine items_of_kernel hAutomaton hEdge (fun item => ?_) ?_
  · rw [mem_kernelAfter]
    constructor
    · rintro ⟨source, hSource, hNext, rfl⟩
      rcases (hq source).mp hSource with _ | _ | _ | i
      · exact absurd (Option.some.inj (hNext.symm.trans h.next?_start)) (ne_of_terminal h.atom h.start_nonterminal)
      · exact absurd (Option.some.inj (hNext.symm.trans (h.next?_opening c))) hOperand
      · rfl
      · exact absurd (Option.some.inj (hNext.symm.trans (h.next?_left i))) hOperand
    · rintro rfl
      exact ⟨⟨1, 0⟩, (hq _).mpr .atom, h.next?_atom, rfl⟩
  · rintro item rfl s hNext
    simp [next?, h.rhs_one] at hNext

theorem items_start (hEdge : edge? states 0 S = some q') : HasItems states q' (· = ⟨ops.length + 2, 1⟩) := by
  refine items_of_kernel hAutomaton hEdge (fun item => ?_) ?_
  · rw [mem_kernelAfter]
    constructor
    · rintro ⟨⟨production, dot⟩, hSource, hNext, rfl⟩
      obtain rfl : dot = 0 := hAutomaton.dot_eq_zero hSource
      rw [LrItem.advance, h.production_eq_of_next_start hNext, h.startRule_eq]
    · rintro rfl
      exact ⟨⟨ops.length + 2, 0⟩, (h.items_zero hAutomaton _).mpr (.start rfl), h.next?_start, rfl⟩
  · rintro item rfl s hNext
    simp [next?, h.rhs_last] at hNext

end Infix

/-! ## The entries of a state -/

/-- The end of the input and the operators, which come after an operand. -/
def FollowsOperand (ops : List (Operator Symbol)) (s : Symbol) : Prop :=
  s = .eof ∨ ∃ i : Fin ops.length, s = (ops.get i).token

namespace Infix

variable (h : g.Infix S E a ops)
include h

theorem operand_follow {s : Symbol} (hs : FollowsOperand ops s) :
    (followOf g.follow E).has s.index = true := by
  have hFollow := follow_closed h.toScoped.inRange
  rcases hs with rfl | ⟨i, rfl⟩
  · obtain ⟨p, hp, hBare⟩ := h.production_zero
    have hLhs : p.lhs = g.start := (congrArg LoweredProduction.lhs hBare).trans h.start_eq.symm
    have hRhs : p.rhs = [] ++ E :: [] := congrArg LoweredProduction.rhs hBare
    exact hFollow.rhs p (Array.mem_of_getElem? hp) [] E [] hRhs h.operand_nonterminal _
      (.inr ⟨rfl, hLhs ▸ hFollow.start⟩)
  · obtain ⟨p, hp, hBare⟩ := h.production_operator i
    have hRhs : p.rhs = [] ++ E :: [(ops.get i).token, E] := congrArg LoweredProduction.rhs hBare
    exact hFollow.rhs p (Array.mem_of_getElem? hp) [] E _ hRhs h.operand_nonterminal _
      (.inl (ofSeq_cons_has (.inl ((begins_closed h.toScoped.inRange).terminal _ (h.token_terminal i)))))

/-- Only the end of the input comes after the start symbol. -/
theorem start_follow {s : Symbol} : (followOf g.follow S).has s.index = true ↔ s = .eof := by
  have hBound : S.index < g.symbols.size := h.start_eq ▸ h.start.2
  have hInitial : followOf g.initialFollow S = TerminalSet.single Symbol.eof.index := by
    simp [followOf, initialFollow, hBound, h.start_eq]
  rw [followOf_follow_of_unused fun p hp => h.start_not_mem_rhs hp, hInitial, TerminalSet.has, TerminalSet.single,
    Nat.one_shiftLeft, Nat.testBit_two_pow, decide_eq_true_iff, Symbol.index_inj]
  exact eq_comm

theorem eof_terminal : g.isTerminal .eof = true := isTerminal_iff.mpr h.tokens_pos

theorem terminal_of_follows {s : Symbol} (hs : FollowsOperand ops s) : g.isTerminal s = true := by
  rcases hs with rfl | ⟨i, rfl⟩
  · exact h.eof_terminal
  · exact h.token_terminal i

theorem offer?_operand (dot : Nat) {k : Nat} {p : LoweredProduction} (hp : g.productions[k]? = some p) (hLhs : p.lhs = E)
    {s : Symbol} (hs : FollowsOperand ops s) : g.offer? g.follow s ⟨k, dot⟩ = some (.reduce k.toUInt16) :=
  offer?_of_mayFollow hp ⟨h.terminal_of_follows hs, .inr ⟨p, hp, hLhs ▸ h.operand_follow hs⟩⟩

theorem offer?_start {s : Symbol} : g.offer? g.follow s (closing (none : Slot ops)) =
    if s = .eof then some (.reduce 0) else none := by
  obtain ⟨p, hp, hBare⟩ := h.production_zero
  have hNot : (0 : Nat) ≠ g.startRule := by rw [h.startRule_eq]; omega
  have hLhs : p.lhs = S := congrArg LoweredProduction.lhs hBare
  simp only [offer?, closing, opening, LrItem.advance, hNot, hp, hLhs, h.start_follow, if_false]
  rfl

variable {states : Array ItemState} {kernels : Array (List LrItem)} (hAutomaton : g.ItemAutomaton states kernels)
  {q q' : StateId} {c : Slot ops}

/-- After an operand, what the operand belongs to is the only complete item. -/
theorem entryAt_operand (hq : HasItems states q (After ops c)) (s : Symbol) :
    g.entryAt states q s =
      g.addReduction g.follow (itemsAt states q) s ((edge? states q s).map .shift) (closing c) := by
  refine entryAt_of_single ((hq _).mpr .closing) (h.next?_closing c) (fun other hOther hNone => ?_) s
  rcases (hq other).mp hOther with _ | i
  · rfl
  · rw [h.next?_token i] at hNone
    cases hNone

theorem shiftPrecedence_operator (hq : HasItems states q (After ops c)) (j : Fin ops.length) :
    g.shiftPrecedence (itemsAt states q) (ops.get j).token = (ops.get j).precedence := by
  refine shiftPrecedence_eq ((hq _).mpr (.operator j)) (h.next?_token j) fun other hOther hNext => ?_
  rcases (hq other).mp hOther with _ | i
  · rw [h.next?_closing c] at hNext
    cases hNext
  · obtain rfl := h.token_inj (Option.some.inj ((h.next?_token i).symm.trans hNext))
    obtain ⟨p, hp, hBare⟩ := h.production_operator i
    rw [hp]
    exact congrArg LoweredProduction.precedence hBare

/-- Between an operator with both operands and the next operator, the side of the first decides. -/
theorem resolveConflict_operator (hq : HasItems states q (After ops c)) (i j : Fin ops.length)
    {p : LoweredProduction} (hp : p.bare =
      ⟨E, [E, (ops.get i).token, E], [], (ops.get i).precedence, (ops.get i).assoc, false⟩) (id : ProductionId)
    (target : StateId) :
    (Operator.Tighter .left (ops.get j) (ops.get i) →
      g.resolveConflict (itemsAt states q) (ops.get j).token id p (.shift target) = .reduce id) ∧
    (Operator.Tighter .right (ops.get i) (ops.get j) →
      g.resolveConflict (itemsAt states q) (ops.get j).token id p (.shift target) = .shift target) := by
  have hLevel := h.shiftPrecedence_operator hq j
  have hPrecedence : p.precedence = (ops.get i).precedence := congrArg LoweredProduction.precedence hp
  have hAssoc : p.assoc = (ops.get i).assoc := congrArg LoweredProduction.assoc hp
  have hRepeat : p.binaryRepeat = false := congrArg LoweredProduction.binaryRepeat hp
  simp only [resolveConflict, hLevel, hPrecedence, hAssoc, hRepeat, Bool.false_eq_true, if_false]
  constructor
  · rintro (hLt | ⟨hEq, hSide⟩)
    · rw [if_neg (by omega), if_pos hLt]
    · rw [if_neg (by omega), if_neg (by omega), hSide]
  · rintro (hLt | ⟨hEq, hSide⟩)
    · rw [if_pos hLt]
    · have hAgree := h.sided.agree _ (List.get_mem ops i) _ (List.get_mem ops j) hEq
      rw [if_neg (by omega), if_neg (by omega), hAgree, hSide]

include hAutomaton

/-- An operator that may stand below the one before it, on the right, is shifted. -/
theorem entryAt_shift (hq : HasItems states q (After ops c)) {j : Fin ops.length}
    (hTighter : ∀ i ∈ c, Operator.Tighter .right (ops.get i) (ops.get j)) :
    ∃ q', edge? states q (ops.get j).token = some q' ∧ g.entryAt states q (ops.get j).token = some (.shift q') := by
  obtain ⟨q', hEdge⟩ := hAutomaton.edge?_of_next ((hq _).mpr (.operator j)) (h.next?_token j)
  refine ⟨q', hEdge, ?_⟩
  rw [h.entryAt_operand hq, hEdge, Option.map_some, addReduction_eq]
  cases c with
  | none =>
    have hEof : (ops.get j).token ≠ .eof := fun hEof => next?_ne_eof h.toScoped (hEof ▸ h.next?_token j)
    rw [h.offer?_start, if_neg hEof]
  | some i =>
    obtain ⟨p, hp, hBare⟩ := h.production_operator i
    have hOffer := h.offer?_operand 3 hp (congrArg LoweredProduction.lhs hBare) (.inr ⟨j, rfl⟩)
    have hResolve := (h.resolveConflict_operator hq i j hBare (i.val + 2).toUInt16 q').2 (hTighter i rfl)
    simp only [closing, opening, LrItem.advance, hOffer, hp, hResolve]

/-- An operator below which the one before it may stand, on the left, waits for that one to be reduced. -/
theorem entryAt_reduce_operator {i : Fin ops.length} (hq : HasItems states q (After ops (some i)))
    {j : Fin ops.length} (hTighter : Operator.Tighter .left (ops.get j) (ops.get i)) :
    g.entryAt states q (ops.get j).token = some (.reduce (i.val + 2).toUInt16) := by
  obtain ⟨q', hEdge⟩ := hAutomaton.edge?_of_next ((hq _).mpr (.operator j)) (h.next?_token j)
  obtain ⟨p, hp, hBare⟩ := h.production_operator i
  have hOffer := h.offer?_operand 3 hp (congrArg LoweredProduction.lhs hBare) (.inr ⟨j, rfl⟩)
  have hResolve := (h.resolveConflict_operator hq i j hBare (i.val + 2).toUInt16 q').1 hTighter
  rw [h.entryAt_operand hq, hEdge, Option.map_some, addReduction_eq]
  simp only [closing, opening, LrItem.advance, hOffer, hp, hResolve]

theorem entryAt_eof (hq : HasItems states q (After ops c)) :
    g.entryAt states q .eof = some (.reduce (closing c).production.toUInt16) := by
  have hNone : edge? states q .eof = none := hAutomaton.edge?_eq_none fun item _ => next?_ne_eof h.toScoped
  rw [h.entryAt_operand hq, hNone, Option.map_none, addReduction_eq]
  cases c with
  | none =>
    rw [h.offer?_start, if_pos rfl]
    rfl
  | some i =>
    obtain ⟨p, hp, hBare⟩ := h.production_operator i
    have hOffer := h.offer?_operand 3 hp (congrArg LoweredProduction.lhs hBare) (.inl rfl)
    simp only [closing, opening, LrItem.advance, hOffer]

theorem entryAt_atom (hq : HasItems states q (Before ops c)) :
    ∃ q', edge? states q a = some q' ∧ g.entryAt states q a = some (.shift q') := by
  obtain ⟨q', hEdge⟩ := hAutomaton.edge?_of_next ((hq _).mpr .atom) h.next?_atom
  refine ⟨q', hEdge, ?_⟩
  rw [entryAt_of_incomplete (fun item hItem hNone => ?_), hEdge, Option.map_some]
  rcases (hq item).mp hItem with _ | _ | _ | i
  · simp [h.next?_start] at hNone
  · simp [h.next?_opening c] at hNone
  · simp [h.next?_atom] at hNone
  · simp [h.next?_left i] at hNone

theorem entryAt_reduce_atom (hq : HasItems states q (· = ⟨1, 1⟩)) {s : Symbol} (hs : FollowsOperand ops s) :
    g.entryAt states q s = some (.reduce 1) := by
  have hComplete : g.next? ⟨1, 1⟩ = none := by simp [next?, h.rhs_one]
  obtain ⟨p, hp, hBare⟩ := h.production_one
  have hOffer := h.offer?_operand 1 hp (congrArg LoweredProduction.lhs hBare) hs
  have hNone : edge? states q s = none := by
    refine hAutomaton.edge?_eq_none fun item hItem => ?_
    rw [(hq item).mp hItem, hComplete]
    exact (Option.some_ne_none s).symm
  rw [entryAt_of_single ((hq _).mpr rfl) hComplete (fun other hOther _ => (hq other).mp hOther), hNone,
    Option.map_none, addReduction_eq, hOffer]
  rfl

omit hAutomaton in
theorem entryAt_accept (hq : HasItems states q (· = ⟨ops.length + 2, 1⟩)) :
    g.entryAt states q .eof = some .accept := by
  have hComplete : g.next? ⟨ops.length + 2, 1⟩ = none := by simp [next?, h.rhs_last]
  rw [entryAt_of_single ((hq _).mpr rfl) hComplete (fun other hOther _ => (hq other).mp hOther), addReduction,
    if_pos h.startRule_eq.symm, if_pos rfl]

end Infix

end LoweredGrammar
end Reparse
