import Reparse.Proofs.Parse.Apart
import Reparse.Proofs.Parse.Steps
/-!
# Stacks linked by a table

The structural entries of a stack stand on a path of the automaton, so what a reduction needs is there: the symbols of
the right-hand side, and a goto from the state below them.
-/
namespace Reparse

open LoweredGrammar

theorem LoweredGrammar.mem_rhs {l : LoweredGrammar} {production : Nat} {s : Symbol} (h : s ∈ l.rhs production) :
    s = l.start ∨ ∃ p ∈ l.productions, s ∈ p.rhs := by
  rw [rhs] at h
  split at h
  · exact .inl (List.mem_singleton.mp h)
  · cases hp : l.productions[production]? with
    | none => simp [hp] at h
    | some p => exact .inr ⟨p, Array.mem_of_getElem? hp, by simpa [hp] using h⟩

/-- The table leads from one state to another one over a symbol, by a shift or by a goto. -/
def Table.Leads (t : Table) (q : StateId) (s : Symbol) (q' : StateId) : Prop :=
  t.action q s = some (.shift q') ∨ t.goto q s = some q'

namespace Grammar.Built

variable {g : Grammar} {l : LoweredGrammar} {states : Array ItemState} {t : Table} {kernels : Array (List LrItem)}
  (h : g.Built l states t) (hAutomaton : l.ItemAutomaton states kernels)
include h hAutomaton

theorem edge?_of_leads {q q' : StateId} {s : Symbol} (hLeads : t.Leads q s q') : edge? states q s = some q' := by
  rcases hLeads with hShift | hGoto
  · exact entryAt_shift (h.entryAt_of_action hAutomaton hShift).2
  · exact h.edge?_of_goto hGoto

/-- Nothing leads over an extra or an error. -/
theorem plain_of_leads (hApart : g.ExtrasApart) {q q' : StateId} {s : Symbol} (hLeads : t.Leads q s q') :
    s ≠ .error ∧ t.isExtra s = false := by
  obtain ⟨item, -, hNext⟩ := mem_nextSymbols.mp (hAutomaton.kernel_of_edge? (h.edge?_of_leads hAutomaton hLeads)).2
  have hMem : s ∈ l.rhs item.production := List.mem_of_getElem? hNext
  have hScope := h.inScope
  have hBound : s.index < l.symbols.size := by
    rcases mem_rhs hMem with rfl | ⟨p, hp, hs⟩
    · exact hScope.start.2
    · exact (hScope.rhs p hp s hs).2
  refine ⟨?_, ?_⟩
  · rintro rfl
    have hIndex : Symbol.error.index = 65535 := rfl
    have hSize := hScope.symbols_lt
    omega
  · rcases mem_rhs hMem with rfl | ⟨p, hp, hs⟩
    · by_contra hNot
      have hTerminal := (h.isToken_of_isExtra (by simpa using hNot)).1
      rw [h.isTerminal_eq, hScope.start.1] at hTerminal
      cases hTerminal
    · exact h.not_isExtra_of_rhs hApart hp hs

end Grammar.Built

/-- What the table leads over is no extra, if only errors and the extras of the table are marked as such. -/
theorem Language.BuiltFrom.not_isExtra_of_leads {l : Language} {g : Grammar} (h : l.BuiltFrom g) (hApart : g.ExtrasApart)
    {x : Subtree} (hx : x.isExtra = true → x.symbol = .error ∨ l.table.isExtra x.symbol = true) {q q' : StateId}
    (hLeads : l.table.Leads q x.symbol q') : x.isExtra = false := by
  obtain ⟨lowered, states, hBuilt⟩ := h.built
  obtain ⟨kernels, hAutomaton⟩ := itemStates_eq_ok hBuilt.itemStates
  obtain ⟨hError, hPlain⟩ := hBuilt.plain_of_leads hAutomaton hApart hLeads
  cases hExtra : x.isExtra with
  | false => rfl
  | true =>
    rcases hx hExtra with hSymbol | hSymbol
    · exact absurd hSymbol hError
    · exact hSymbol.symm.trans hPlain

namespace ParseStack

open Subtree

variable {t : Table} {s rest : ParseStack} {entry : StackEntry} {subtree : Subtree}

/-- The entries that are no extras, the top one first. -/
def structural (s : ParseStack) : List StackEntry := s.filter fun entry => !entry.subtree.isExtra

/-- Every structural entry is in the state that the table leads to from the state below over the entry's symbol. An
extra repeats the state below. -/
inductive Linked (t : Table) : ParseStack → Prop
  | nil : Linked t []
  | extra {entry : StackEntry} {rest : ParseStack} : Linked t rest → entry.subtree.isExtra = true →
    entry.state = rest.state → Linked t (entry :: rest)
  | structural {entry : StackEntry} {rest : ParseStack} : Linked t rest → entry.subtree.isExtra = false →
    t.Leads rest.state entry.subtree.symbol entry.state → Linked t (entry :: rest)

theorem Linked.of_append {top : List StackEntry} (h : Linked t (top ++ s)) : s.Linked t := by
  induction top with
  | nil => exact h
  | cons _ _ ih => cases h <;> exact ih ‹_›

theorem Linked.push (h : s.Linked t) {q : StateId} (hStructural : subtree.isExtra = false)
    (hLeads : t.Leads s.state subtree.symbol q) : (s.push q subtree).Linked t :=
  .structural h hStructural hLeads

theorem Linked.pushExtra (h : s.Linked t) (hExtra : subtree.isExtra = true) : (s.pushExtra subtree).Linked t :=
  .extra h hExtra rfl

theorem Linked.pushExtras (h : s.Linked t) {extras : List Subtree} (hExtras : ∀ x ∈ extras, x.isExtra = true) :
    (s.pushExtras extras).Linked t := by
  induction extras generalizing s with
  | nil => exact h
  | cons x rest ih =>
    exact ih (h.pushExtra (hExtras x List.mem_cons_self)) fun y hy => hExtras y (List.mem_cons_of_mem _ hy)

/-- Extras at the top repeat the state below them. -/
theorem Linked.state_append {top : List StackEntry} (h : Linked t (top ++ s)) (hTop : ∀ e ∈ top, e.subtree.isExtra = true) :
    ParseStack.state (top ++ s) = s.state := by
  induction top with
  | nil => rfl
  | cons e top ih =>
    have hExtra := hTop e List.mem_cons_self
    have hRest := fun e he => hTop e (List.mem_cons_of_mem _ he)
    cases h with
    | extra h _ hState => exact hState.trans (ih h hRest)
    | structural _ hNot => exact absurd (hNot.symm.trans hExtra) Bool.false_ne_true

/-! ## Structural entries -/

theorem structural_append (top : List StackEntry) (s : ParseStack) :
    structural (top ++ s) = structural top ++ structural s := by
  rw [structural, structural, structural, List.filter_append]

theorem structural_extras {top : ParseStack} (h : ∀ e ∈ top, e.subtree.isExtra = true) : structural top = [] := by
  apply List.filter_eq_nil_iff.mpr
  intro e he
  simp [h e he]

theorem structural_cons_extra (h : entry.subtree.isExtra = true) : structural (entry :: rest) = structural rest := by
  rw [structural, List.filter_cons_of_neg (by simp [h]), structural]

theorem structural_cons (h : entry.subtree.isExtra = false) : structural (entry :: rest) = entry :: structural rest := by
  rw [structural, List.filter_cons_of_pos (by simp [h]), structural]

theorem structuralStates_eq (s : ParseStack) : s.structuralStates = s.structural.map (·.state) ++ [0] := rfl

/-- Splitting off structural entries takes them from the top. -/
theorem structural_splitStructural (count : Nat) (s : ParseStack) :
    structural (splitStructural count s).1 = s.structural.take count ∧
      structural (splitStructural count s).2 = s.structural.drop count := by
  fun_induction splitStructural count s with
  | case1 => exact ⟨rfl, rfl⟩
  | case2 => exact ⟨rfl, rfl⟩
  | case3 count entry rest taken rest' hSplit ih =>
    rw [hSplit] at ih
    dsimp only at ih ⊢
    cases hExtra : entry.subtree.isExtra with
    | true =>
      simp only [hExtra, dite_true] at ih
      rw [structural_cons_extra hExtra, structural_cons_extra hExtra]
      exact ih
    | false =>
      simp only [hExtra, Bool.false_eq_true, dite_false] at ih
      rw [structural_cons hExtra, structural_cons hExtra, ih.1, ih.2]
      exact ⟨rfl, rfl⟩

/-- The symbols of the subtrees are those of the structural entries, the bottom one first. -/
theorem symbolsOf_subtrees (s : ParseStack) : symbolsOf s.subtrees = (s.structural.map (·.subtree.symbol)).reverse := by
  induction s with
  | nil => rfl
  | cons entry rest ih =>
    rw [subtrees_cons, symbolsOf_append, ih]
    cases hExtra : entry.subtree.isExtra with
    | true => rw [symbolsOf_extras (by simpa using hExtra), structural_cons_extra hExtra, List.append_nil]
    | false => rw [symbolsOf_singleton hExtra, structural_cons hExtra, List.map_cons, List.reverse_cons]

end ParseStack

/-! ## Paths -/

namespace ParseStack.Linked

open Subtree

variable {g : Grammar} {l : LoweredGrammar} {states : Array ItemState} {t : Table} {kernels : Array (List LrItem)}
  {s : ParseStack} (hBuilt : g.Built l states t) (hAutomaton : l.ItemAutomaton states kernels)
include hBuilt hAutomaton

/-- The states of the structural entries are those that the automaton passes on the way over their symbols. -/
theorem spells (h : s.Linked t) : (∃ rest, s.structuralStates = s.state :: rest) ∧
    Spells states s.structuralStates (s.structural.map (·.subtree.symbol)) := by
  induction h with
  | nil => exact ⟨⟨[], rfl⟩, .start⟩
  | @extra entry rest _ hExtra hState ih =>
    obtain ⟨⟨below, hBelow⟩, hSpells⟩ := ih
    rw [structuralStates_eq, structural_cons_extra hExtra, ← structuralStates_eq]
    exact ⟨⟨below, hBelow.trans (by rw [← hState]; rfl)⟩, hSpells⟩
  | @structural entry rest _ hStructural hLeads ih =>
    obtain ⟨⟨below, hBelow⟩, hSpells⟩ := ih
    have hEdge := hBuilt.edge?_of_leads hAutomaton hLeads
    rw [structuralStates_eq, structural_cons hStructural, List.map_cons, List.map_cons, List.cons_append, ← structuralStates_eq]
    refine ⟨⟨_, rfl⟩, ?_⟩
    rw [hBelow] at hSpells ⊢
    exact .edge hSpells hEdge

/-- Below the symbols of a complete item lies a state in which its production begins. -/
theorem retrace (h : s.Linked t) {item : LrItem} (hItem : item ∈ itemsAt states s.state) (hComplete : l.next? item = none)
    {taken : List StackEntry} {below : ParseStack}
    (hSplit : splitStructural (l.rhs item.production).length s = (taken, below)) :
    (l.rhs item.production).length ≤ s.structural.length ∧ symbolsOf (subtrees taken) = l.rhs item.production ∧
      ⟨item.production, 0⟩ ∈ itemsAt states below.state := by
  obtain ⟨production, dot⟩ := item
  obtain ⟨⟨rest, hTop⟩, hSpells⟩ := h.spells hBuilt hAutomaton
  have hDot : dot = (l.rhs production).length := hAutomaton.dot_eq_length hItem hComplete
  rw [hTop] at hSpells
  obtain ⟨q₀, rest₀, symbols₀, hDrop, hSymbols, -, hBegin⟩ := hAutomaton.retrace hSpells hItem
  obtain ⟨hTaken, hBelow⟩ := structural_splitStructural (l.rhs production).length s
  rw [hSplit] at hTaken hBelow
  rw [hDot, List.take_length] at hSymbols
  have hEnough : (l.rhs production).length ≤ s.structural.length := by
    have hLength := congrArg List.length hSymbols
    simp only [List.length_map, List.length_append, List.length_reverse] at hLength
    omega
  refine ⟨hEnough, ?_, ?_⟩
  · rw [symbolsOf_subtrees, hTaken, List.map_take, hSymbols, List.take_left' (by rw [List.length_reverse]),
      List.reverse_reverse]
  · have hLinked : below.Linked t := by
      have hParts := splitStructural_append (l.rhs production).length s
      rw [hSplit] at hParts
      rw [← hParts] at h
      exact h.of_append
    obtain ⟨⟨rest', hTop'⟩, -⟩ := hLinked.spells hBuilt hAutomaton
    have hStates : below.structuralStates = s.structuralStates.drop dot := by
      rw [structuralStates_eq, structuralStates_eq, hBelow, hDot, List.drop_append_of_le_length (by rwa [List.length_map]),
        List.map_drop]
    rw [hTop', hTop, hDrop] at hStates
    rw [(List.cons.inj hStates).1]
    exact hBegin

/-- A reduction finds the right-hand side of its production on the stack, and a goto below it. -/
theorem reduces (h : s.Linked t) (hCount : t.productions.size < 65535) {symbol : Symbol} {id : ProductionId}
    (hAction : t.action s.state symbol = some (.reduce id)) {taken : List StackEntry} {below : ParseStack}
    (hSplit : splitStructural (t.production id).childCount.toNat s = (taken, below)) :
    (t.production id).childCount.toNat ≤ s.structural.length ∧
      (∃ next, t.goto below.state (t.production id).lhs = some next) ∧
      ∃ p, l.productions[id.toNat]? = some p ∧ (t.production id).lhs = p.lhs ∧ symbolsOf (subtrees taken) = p.rhs := by
  obtain ⟨item, p, hItem, hComplete, hp, rfl, -⟩ := entryAt_reduce (hBuilt.entryAt_of_action hAutomaton hAction).2
  obtain ⟨hLhs, hChildren⟩ := hBuilt.production_eq hAutomaton hCount hItem hComplete hp
  have hId : item.production.toUInt16.toNat = item.production := by
    have hBound := (Array.getElem?_eq_some_iff.mp hp).1
    rw [hBuilt.productions_size] at hCount
    exact Nat.mod_eq_of_lt (by omega)
  rw [hChildren, ← rhs_of_production hp] at hSplit
  obtain ⟨hEnough, hSymbols, hBegin⟩ := h.retrace hBuilt hAutomaton hItem hComplete hSplit
  rw [rhs_of_production hp] at hEnough hSymbols
  refine ⟨by rwa [hChildren], ?_, p, by rwa [hId], hLhs, hSymbols⟩
  obtain ⟨next, hEdge⟩ := hAutomaton.edge?_lhs hBegin hp
  obtain ⟨hNonterminal, hBound⟩ := hBuilt.inScope.lhs p (Array.mem_of_getElem? hp)
  exact ⟨next, by rw [hLhs, hBuilt.goto_eq hNonterminal hBound, hEdge]⟩

/-- What accepts is the start symbol alone. -/
theorem accepts (h : s.Linked t) {symbol : Symbol} (hAction : t.action s.state symbol = some .accept) :
    symbolsOf s.subtrees = [t.start] := by
  obtain ⟨-, ⟨production, dot⟩, hItem, hComplete, rfl⟩ := entryAt_accept (hBuilt.entryAt_of_action hAutomaton hAction).2
  have hDot := hAutomaton.dot_eq_length hItem hComplete
  obtain ⟨⟨rest, hTop⟩, hSpells⟩ := h.spells hBuilt hAutomaton
  rw [hTop] at hSpells
  obtain ⟨q₀, rest₀, symbols₀, -, hSymbols, hSpells₀, hBegin⟩ := hAutomaton.retrace hSpells hItem
  rw [show dot = _ from hDot, List.take_length, rhs_startRule] at hSymbols
  obtain rfl := hAutomaton.eq_zero_of_start_mem hBegin
  obtain rfl : symbols₀ = [] := by
    cases hSpells₀ with
    | start => rfl
    | edge _ hEdge => exact absurd rfl (hAutomaton.edge?_ne_zero hEdge)
  rw [symbolsOf_subtrees, hSymbols, hBuilt.start_eq]
  rfl

end ParseStack.Linked
end Reparse
