import Reparse.Proofs.Grammar.ItemSets
/-!
# Paths through the automaton

`Spells states stack symbols` says that the states of a stack, the top one first, are those that the
automaton passes on the way over `symbols`, the last one first. An item of the top state tells what was
read last, and which state its production began in.
-/
namespace Reparse
namespace LoweredGrammar

variable {g : LoweredGrammar} {states : Array ItemState} {kernels : Array (List LrItem)}

inductive Spells (states : Array ItemState) : List StateId → List Symbol → Prop
  | start : Spells states [0] []
  | edge {q q' : StateId} {rest : List StateId} {symbols : List Symbol} {s : Symbol} :
    Spells states (q :: rest) symbols → edge? states q s = some q' →
    Spells states (q' :: q :: rest) (s :: symbols)

theorem Spells.length_eq {stack : List StateId} {symbols : List Symbol} (h : Spells states stack symbols) :
    stack.length = symbols.length + 1 := by
  induction h with
  | start => rfl
  | edge _ _ ih => simp only [List.length_cons] at ih ⊢; omega

namespace ItemAutomaton

variable (h : g.ItemAutomaton states kernels)
include h

/-- Below the symbols that an item has read lies a state in which its production begins. -/
theorem retrace {production dot : Nat} {q : StateId} {rest : List StateId} {symbols : List Symbol}
    (hSpells : Spells states (q :: rest) symbols) (hItem : ⟨production, dot⟩ ∈ itemsAt states q) :
    ∃ (q₀ : StateId) (rest₀ : List StateId) (symbols₀ : List Symbol),
      (q :: rest).drop dot = q₀ :: rest₀ ∧ symbols = ((g.rhs production).take dot).reverse ++ symbols₀ ∧
      Spells states (q₀ :: rest₀) symbols₀ ∧ ⟨production, 0⟩ ∈ itemsAt states q₀ := by
  induction dot generalizing q rest symbols with
  | zero => exact ⟨q, rest, symbols, rfl, by simp, hSpells, hItem⟩
  | succ dot ih =>
    cases hSpells with
    | start => exact absurd (h.dot_eq_zero hItem) (Nat.succ_ne_zero dot)
    | edge hRest hEdge =>
      obtain ⟨⟨production', dot'⟩, hSource, hNext, hEq⟩ := h.source_of_mem hEdge hItem (.inl (Nat.succ_ne_zero dot))
      simp only [LrItem.advance, LrItem.mk.injEq, Nat.add_right_cancel_iff] at hEq
      obtain ⟨rfl, rfl⟩ := hEq
      obtain ⟨q₀, rest₀, symbols₀, hDrop, hSymbols, hSpells₀, hBegin⟩ := ih hRest hSource
      refine ⟨q₀, rest₀, symbols₀, by simpa using hDrop, ?_, hSpells₀, hBegin⟩
      rw [next?] at hNext
      rw [List.take_add_one, hNext, hSymbols]
      simp

/-- Where a production begins, its left-hand side has an edge. -/
theorem edge?_lhs {production : Nat} {p : LoweredProduction} {q : StateId}
    (hItem : ⟨production, 0⟩ ∈ itemsAt states q) (hProduction : g.productions[production]? = some p) :
    ∃ q', edge? states q p.lhs = some q' := by
  have hBound := (Array.getElem?_eq_some_iff.mp hProduction).1
  by_cases hq : q.toNat < states.size
  · obtain ⟨kernel, hKernel, hItems⟩ := h.itemsAt_eq hq
    rw [hItems] at hItem
    rcases origin_of_mem_closure hItem with hMem | ⟨s, hInitial, _, source, hSource, hNext⟩
    · -- A kernel holds a dot at the start for the start rule only.
      by_cases hZero : q.toNat = 0
      · rw [hZero, h.start] at hKernel
        obtain rfl := Option.some.inj hKernel
        simp only [List.mem_singleton, LrItem.mk.injEq, startRule] at hMem
        omega
      · obtain ⟨_, _, _, _, _, _, rfl⟩ := h.reached _ _ (Nat.pos_of_ne_zero hZero) hKernel
        obtain ⟨_, _, _, hEq⟩ := mem_kernelAfter.mp hMem
        simp [LrItem.advance] at hEq
    · obtain ⟨p', hp', rfl, _⟩ := mem_initialItems.mp hInitial
      obtain rfl := Option.some.inj (hProduction.symm.trans hp')
      exact h.edge?_of_next (hItems ▸ hSource) hNext
  · simp [itemsAt, Array.getElem?_eq_none (Nat.le_of_not_lt hq)] at hItem

/-- Induction over the items of all states, by the ways in which an item comes into a state. -/
theorem item_induction {motive : Nat → LrItem → Prop} (start : motive 0 ⟨g.startRule, 0⟩)
    (initial : ∀ i s item, item ∈ g.initialItems s → motive i item)
    (advance : ∀ i j item s, j < i → motive j item → g.next? item = some s → motive i item.advance)
    {q : StateId} {item : LrItem} (hItem : item ∈ itemsAt states q) : motive q.toNat item := by
  have hIndex (i : Nat) : ∀ (kernel : List LrItem) (item : LrItem), kernels[i]? = some kernel →
      item ∈ g.closure kernel → motive i item := by
    induction i using Nat.strongRecOn with
    | ind i ih =>
      intro kernel item hKernel hItem
      rcases origin_of_mem_closure hItem with hMem | ⟨s, hInitial, _⟩
      · by_cases hZero : i = 0
        · subst hZero
          rw [h.start] at hKernel
          obtain rfl := Option.some.inj hKernel
          rw [List.mem_singleton.mp hMem]
          exact start
        · obtain ⟨j, state, s, hj, hState, _, rfl⟩ := h.reached _ _ (Nat.pos_of_ne_zero hZero) hKernel
          obtain ⟨source, hSource, hNext, rfl⟩ := mem_kernelAfter.mp hMem
          obtain ⟨kernel', hKernel', hItems⟩ := h.items _ _ hState
          exact advance i j source s hj (ih j hj kernel' source hKernel' (hItems ▸ hSource)) hNext
      · exact initial i s item hInitial
  by_cases hq : q.toNat < states.size
  · obtain ⟨kernel, hKernel, hItems⟩ := h.itemsAt_eq hq
    exact hIndex _ kernel item hKernel (hItems ▸ hItem)
  · simp [itemsAt, Array.getElem?_eq_none (Nat.le_of_not_lt hq)] at hItem

/-- A dot is no further on than there are states before its own. -/
theorem dot_le {item : LrItem} {q : StateId} (hItem : item ∈ itemsAt states q) : item.dot ≤ q.toNat := by
  refine h.item_induction (motive := fun i item => item.dot ≤ i) (Nat.le_refl 0) ?_ ?_ hItem
  · intro i s item hInitial
    obtain ⟨_, _, _, hDot⟩ := mem_initialItems.mp hInitial
    omega
  · intro i j item s hj hDot _
    simp only [LrItem.advance]
    omega

theorem dot_le_length {item : LrItem} {q : StateId} (hItem : item ∈ itemsAt states q) :
    item.dot ≤ (g.rhs item.production).length := by
  refine h.item_induction (motive := fun _ item => item.dot ≤ (g.rhs item.production).length)
    (Nat.zero_le _) ?_ ?_ hItem
  · intro i s item hInitial
    obtain ⟨_, _, _, hDot⟩ := mem_initialItems.mp hInitial
    omega
  · intro _ _ item s _ _ hNext
    exact (List.getElem?_eq_some_iff.mp hNext).1

theorem dot_eq_length {item : LrItem} {q : StateId} (hItem : item ∈ itemsAt states q)
    (hComplete : g.next? item = none) : item.dot = (g.rhs item.production).length :=
  Nat.le_antisymm (h.dot_le_length hItem) (List.getElem?_eq_none_iff.mp hComplete)

/-- The right-hand side of a complete item is short enough for its length to fit in a word. -/
theorem length_rhs_lt {item : LrItem} {q : StateId} (hItem : item ∈ itemsAt states q)
    (hComplete : g.next? item = none) : (g.rhs item.production).length < 65536 := by
  rw [← h.dot_eq_length hItem hComplete]
  exact Nat.lt_of_le_of_lt (h.dot_le hItem) q.toNat_lt

end ItemAutomaton

end LoweredGrammar
end Reparse
