import Reparse.Proofs.Grammar.Paths
/-!
# The entries of a built table

The table of a grammar read through its automaton: gotos and shifts are edges, reductions are complete
items before a terminal that may follow, and only the complete start rule accepts. In a grammar
without conflicts, whatever an entry is wanted for is what it holds.
-/
namespace Reparse
namespace LoweredGrammar

variable {g : LoweredGrammar} {states : Array ItemState}

/-! ## Rows -/

/-- Rows of one width stand at multiples of it. -/
theorem getElem?_flatMap_rows {α β : Type} {row : α → List β} {width : Nat}
    (hWidth : ∀ a, (row a).length = width) (as : List α) {i j : Nat} (hj : j < width) :
    (as.flatMap row)[i * width + j]? = as[i]?.bind fun a => (row a)[j]? := by
  induction as generalizing i with
  | nil => simp
  | cons a rest ih =>
    rw [List.flatMap_cons]
    cases i with
    | zero => rw [List.getElem?_append_left (by rw [hWidth]; omega)]; simp
    | succ i =>
      have hPast : (i + 1) * width + j = (row a).length + (i * width + j) := by
        rw [hWidth, Nat.succ_mul]; omega
      rw [hPast, List.getElem?_append_right (Nat.le_add_right _ _), Nat.add_sub_cancel_left, ih]
      simp

/-- The entry of the state with number `q` for a terminal, past the last state none. -/
def entryAt (g : LoweredGrammar) (states : Array ItemState) (q : StateId) (s : Symbol) : Option Action :=
  (states[q.toNat]?).bind fun state => g.actionEntry g.follow state (g.completeItems state.items) s

theorem ofIndex_index (s : Symbol) : Symbol.ofIndex s.index = s := by
  rw [← Symbol.index_inj]
  exact Symbol.index_ofIndex s.index_lt

theorem isTerminal_iff {s : Symbol} : g.isTerminal s = true ↔ s.index < g.tokenCount.toNat := by
  simp [isTerminal, Symbol.index, UInt16.lt_iff_toNat_lt]

theorem isTerminal_toTable (s : Symbol) : (g.toTable states).isTerminal s = g.isTerminal s := rfl

theorem action_toTable (hSize : states.size ≤ maxStates) (q : StateId) {s : Symbol}
    (hTerm : g.isTerminal s = true) : (g.toTable states).action q s = g.entryAt states q s := by
  have hIndex := isTerminal_iff.mp hTerm
  have hCount : (g.toTable states).stateCount.toNat = states.size := by
    simp only [maxStates] at hSize
    exact Nat.mod_eq_of_lt (by omega)
  have hEntry : ((g.toTable states).actions[q.toNat * g.tokenCount.toNat + s.index]?).join = g.entryAt states q s := by
    have hRow (state : ItemState) : (g.actionRow g.follow state).length = g.tokenCount.toNat := by
      simp [actionRow]
    rw [toTable, List.getElem?_toArray, getElem?_flatMap_rows hRow _ hIndex, Array.getElem?_toList, entryAt]
    cases states[q.toNat]? with
    | none => rfl
    | some state => simp [actionRow, hIndex, ofIndex_index]
  rw [Table.action, isTerminal_toTable, hTerm]
  by_cases hq : q < (g.toTable states).stateCount
  · rw [if_pos (by simpa using hq)]
    exact hEntry
  · rw [if_neg (by simpa using hq), entryAt, Array.getElem?_eq_none]
    · rfl
    · simp only [UInt16.lt_iff_toNat_lt, hCount] at hq
      omega

theorem action_eq_none_of_nonterminal {t : Table} {q : StateId} {s : Symbol} (hTerm : t.isTerminal s = false) :
    t.action q s = none := by
  simp [Table.action, hTerm]

theorem goto_toTable {q : StateId} {s : Symbol} (hTerm : g.isTerminal s = false)
    (hBound : s.index < g.symbols.size) : (g.toTable states).goto q s = edge? states q s := by
  have hPast : g.tokenCount.toNat ≤ s.index := by
    by_contra hLt
    rw [isTerminal_iff.mpr (by omega)] at hTerm
    cases hTerm
  have hRow (state : ItemState) : (g.gotoRow state).length = g.symbols.size - g.tokenCount.toNat := by
    simp [gotoRow]
  have hColumn : s.index - g.tokenCount.toNat < g.symbols.size - g.tokenCount.toNat := by omega
  have hNot : ¬((g.toTable states).isTerminal s || decide ((g.toTable states).symbols.size ≤ s.index)) = true := by
    rw [isTerminal_toTable, hTerm]
    simpa [toTable] using hBound
  rw [Table.goto, if_neg hNot]
  change (((states.toList.flatMap g.gotoRow).toArray)[q.toNat * (g.symbols.size - g.tokenCount.toNat)
    + (s.index - g.tokenCount.toNat)]?).join = _
  rw [List.getElem?_toArray, getElem?_flatMap_rows hRow _ hColumn, Array.getElem?_toList, edge?]
  cases states[q.toNat]? with
  | none => rfl
  | some state => simp [gotoRow, hColumn, Nat.add_sub_cancel' hPast, ofIndex_index]

theorem goto_eq_none {t : Table} {q : StateId} {s : Symbol}
    (h : t.isTerminal s = true ∨ t.symbols.size ≤ s.index) : t.goto q s = none := by
  rw [Table.goto, if_pos (by simpa using h)]

/-! ## What entries stand for -/

/-- What a complete item wants of the entry for a terminal. -/
def offer? (g : LoweredGrammar) (follow : Follow) (lookahead : Symbol) (item : LrItem) : Option Action :=
  if item.production = g.startRule then if lookahead = .eof then some .accept else none
  else
    match g.productions[item.production]? with
    | none => none
    | some p =>
      if (followOf follow p.lhs).has lookahead.index then some (.reduce item.production.toUInt16) else none

/-- All that is wanted of an entry. -/
def offers (g : LoweredGrammar) (follow : Follow) (state : ItemState) (lookahead : Symbol) : List Action :=
  ((state.target? lookahead).map Action.shift).toList
    ++ (g.completeItems state.items).filterMap (g.offer? follow lookahead)

/-- No two actions are wanted of one entry. -/
def ConflictFree (g : LoweredGrammar) (states : Array ItemState) : Prop :=
  ∀ state ∈ states, ∀ s, g.isTerminal s = true →
    ∀ a ∈ g.offers g.follow state s, ∀ b ∈ g.offers g.follow state s, a = b

/-- Looks for two actions that are wanted of one entry. -/
def hasConflict (g : LoweredGrammar) (states : Array ItemState) : Bool :=
  let follow := g.follow
  states.any fun state =>
    (List.range g.tokenCount.toNat).any fun i =>
      match g.offers follow state (.ofIndex i) with
      | [] => false
      | first :: rest => rest.any (· != first)

theorem conflictFree_of_hasConflict (h : g.hasConflict states = false) : g.ConflictFree states := by
  intro state hState s hs a ha b hb
  simp only [hasConflict, Array.any_eq_false'] at h
  have hNone := List.any_eq_false.mp (Bool.eq_false_iff.mpr (h state hState)) s.index
    (List.mem_range.mpr (isTerminal_iff.mp hs))
  rw [ofIndex_index] at hNone
  cases hOffers : g.offers g.follow state s with
  | nil => rw [hOffers] at ha; cases ha
  | cons first rest =>
    simp only [hOffers, List.any_eq_true, bne_iff_ne, ne_eq, not_exists, not_and, Decidable.not_not] at hNone
    have hFirst : ∀ x ∈ first :: rest, x = first := by simpa using hNone
    rw [hFirst a (hOffers ▸ ha), hFirst b (hOffers ▸ hb)]

theorem addReduction_eq (follow : Follow) (items : List LrItem) (lookahead : Symbol) (entry : Option Action)
    (item : LrItem) :
    g.addReduction follow items lookahead entry item =
      match g.offer? follow lookahead item with
      | none => entry
      | some .accept => some .accept
      | some (.reduce id) =>
        match entry, g.productions[item.production]? with
        | some action, some p => some (g.resolveConflict items lookahead id p action)
        | _, _ => some (.reduce id)
      | some (.shift target) => some (.shift target) := by
  rw [addReduction, offer?]
  by_cases hStart : item.production = g.startRule
  · by_cases hEnd : lookahead = .eof <;> simp [hStart, hEnd]
  · simp only [hStart, if_false]
    cases hp : g.productions[item.production]? with
    | none => rfl
    | some p =>
      simp only
      by_cases hFollow : (followOf follow p.lhs).has lookahead.index
      · simp only [hFollow, if_true]
        cases entry <;> rfl
      · simp only [hFollow, Bool.false_eq_true, if_false]

/-- A resolved conflict is decided for one of the two sides. -/
theorem resolveConflict_eq (items : List LrItem) (lookahead : Symbol) (id : ProductionId)
    (p : LoweredProduction) (action : Action) :
    g.resolveConflict items lookahead id p action = action ∨
      g.resolveConflict items lookahead id p action = .reduce id := by
  cases action with
  | accept => exact .inl rfl
  | reduce other =>
    rw [resolveConflict]
    split
    · exact .inl rfl
    · exact .inr rfl
  | shift target =>
    rw [resolveConflict]
    split
    · exact .inr rfl
    split
    · exact .inl rfl
    split
    · exact .inr rfl
    split
    · exact .inr rfl
    · exact .inl rfl
    · exact .inl rfl

theorem addReduction_mem {follow : Follow} {items : List LrItem} {lookahead : Symbol} {entry : Option Action}
    {item : LrItem} {a : Action} (h : g.addReduction follow items lookahead entry item = some a) :
    entry = some a ∨ g.offer? follow lookahead item = some a := by
  rw [addReduction_eq] at h
  split at h
  next => exact .inl h
  next hOffer => exact .inr (hOffer.trans h)
  next id hOffer =>
    split at h
    next action p _ =>
      rcases resolveConflict_eq items lookahead id p action with hEq | hEq
      · exact .inl (by rw [← h, hEq])
      · exact .inr (by rw [hOffer, ← h, hEq])
    next => exact .inr (hOffer.trans h)
  next hOffer => exact .inr (hOffer.trans h)

theorem foldl_addReduction_mem {follow : Follow} {items : List LrItem} {lookahead : Symbol}
    {complete : List LrItem} {entry : Option Action} {a : Action}
    (h : complete.foldl (g.addReduction follow items lookahead) entry = some a) :
    entry = some a ∨ ∃ item ∈ complete, g.offer? follow lookahead item = some a := by
  induction complete generalizing entry with
  | nil => exact .inl h
  | cons item rest ih =>
    rcases ih h with h | ⟨other, hMem, hOffer⟩
    · exact (addReduction_mem h).imp_right fun hOffer => ⟨item, List.mem_cons_self, hOffer⟩
    · exact .inr ⟨other, List.mem_cons_of_mem _ hMem, hOffer⟩

/-- Whatever an entry holds was wanted of it. -/
theorem mem_offers_of_actionEntry {follow : Follow} {state : ItemState} {s : Symbol} {a : Action}
    (h : g.actionEntry follow state (g.completeItems state.items) s = some a) :
    a ∈ g.offers follow state s := by
  rcases foldl_addReduction_mem h with hShift | ⟨item, hItem, hOffer⟩
  · exact List.mem_append_left _ (by simp [hShift])
  · exact List.mem_append_right _ (List.mem_filterMap.mpr ⟨item, hItem, hOffer⟩)

/-- Where all that is wanted agrees, nothing of it is lost. -/
theorem foldl_addReduction_eq {follow : Follow} {items : List LrItem} {lookahead : Symbol}
    {complete : List LrItem} {entry : Option Action} {a : Action} (hEntry : entry = none ∨ entry = some a)
    (hAll : ∀ item ∈ complete, ∀ b, g.offer? follow lookahead item = some b → b = a)
    (hSome : entry = some a ∨ ∃ item ∈ complete, g.offer? follow lookahead item = some a) :
    complete.foldl (g.addReduction follow items lookahead) entry = some a := by
  induction complete generalizing entry with
  | nil => simpa using hSome
  | cons item rest ih =>
    rw [List.foldl_cons]
    have hRest : ∀ item ∈ rest, ∀ b, g.offer? follow lookahead item = some b → b = a :=
      fun other hMem => hAll other (List.mem_cons_of_mem _ hMem)
    cases hOffer : g.offer? follow lookahead item with
    | none =>
      have hKept : g.addReduction follow items lookahead entry item = entry := by
        rw [addReduction_eq, hOffer]
      rw [hKept]
      refine ih hEntry hRest (hSome.imp_right ?_)
      rintro ⟨other, hMem, hOther⟩
      rcases List.mem_cons.mp hMem with rfl | hMem
      · simp [hOffer] at hOther
      · exact ⟨other, hMem, hOther⟩
    | some b =>
      obtain rfl := hAll item List.mem_cons_self b hOffer
      have hHeld : g.addReduction follow items lookahead entry item = some b := by
        rw [addReduction_eq, hOffer]
        cases b with
        | accept => rfl
        | shift target => rfl
        | reduce id =>
          rcases hEntry with rfl | rfl
          · rfl
          · cases g.productions[item.production]? with
            | none => rfl
            | some p => simp [resolveConflict]
      rw [hHeld]
      exact ih (.inr rfl) hRest (.inl rfl)

theorem actionEntry_eq_of_conflictFree {state : ItemState} {s : Symbol} {a : Action}
    (hFree : g.ConflictFree states) (hState : state ∈ states) (hTerm : g.isTerminal s = true)
    (h : a ∈ g.offers g.follow state s) :
    g.actionEntry g.follow state (g.completeItems state.items) s = some a := by
  have hAll := fun b hb => hFree state hState s hTerm b hb a h
  rw [actionEntry]
  refine foldl_addReduction_eq ?_ ?_ ?_
  · cases hTarget : state.target? s with
    | none => exact .inl rfl
    | some target =>
      exact .inr (congrArg some (hAll (.shift target) (List.mem_append_left _ (by simp [hTarget]))))
  · intro item hItem b hOffer
    exact hAll b (List.mem_append_right _ (List.mem_filterMap.mpr ⟨item, hItem, hOffer⟩))
  · rcases List.mem_append.mp h with h | h
    · exact .inl (by simpa using h)
    · exact .inr (List.mem_filterMap.mp h)

theorem mem_completeItems {items : List LrItem} {item : LrItem} :
    item ∈ g.completeItems items ↔ item ∈ items ∧ g.next? item = none := by
  simp [completeItems]

/-- A complete item has its say once. -/
theorem addReduction_addReduction (follow : Follow) (items : List LrItem) (lookahead : Symbol)
    (entry : Option Action) (item : LrItem) :
    g.addReduction follow items lookahead (g.addReduction follow items lookahead entry item) item =
      g.addReduction follow items lookahead entry item := by
  rw [addReduction_eq, addReduction_eq]
  split
  · rfl
  · rfl
  next id _ =>
    cases entry with
    | none => cases g.productions[item.production]? <;> simp [resolveConflict]
    | some action =>
      cases g.productions[item.production]? with
      | none => rfl
      | some p =>
        dsimp only
        rcases resolveConflict_eq items lookahead id p action with hEq | hEq <;> rw [hEq]
        · rw [hEq]
        · simp [resolveConflict]
  · rfl

theorem entryAt_of_single {q : StateId} {item : LrItem}
    (hItem : item ∈ itemsAt states q) (hComplete : g.next? item = none)
    (hOnly : ∀ other ∈ itemsAt states q, g.next? other = none → other = item) (s : Symbol) :
    g.entryAt states q s =
      g.addReduction g.follow (itemsAt states q) s ((edge? states q s).map .shift) item := by
  cases hState : states[q.toNat]? with
  | none => simp [itemsAt, hState] at hItem
  | some state =>
    have hAt : itemsAt states q = state.items := by simp [itemsAt, hState]
    rw [hAt] at hItem hOnly ⊢
    have hFold (complete : List LrItem) (hNil : complete ≠ []) (hAll : ∀ other ∈ complete, other = item)
        (entry : Option Action) : complete.foldl (g.addReduction g.follow state.items s) entry =
          g.addReduction g.follow state.items s entry item := by
      induction complete generalizing entry with
      | nil => exact absurd rfl hNil
      | cons first rest ih =>
        obtain rfl := hAll first List.mem_cons_self
        rw [List.foldl_cons]
        by_cases hRest : rest = []
        · rw [hRest, List.foldl_nil]
        · rw [ih hRest fun other hMem => hAll other (List.mem_cons_of_mem _ hMem), addReduction_addReduction]
    have hComplete' := mem_completeItems.mpr ⟨hItem, hComplete⟩
    have hEdge : edge? states q s = state.target? s := by simp [edge?, hState]
    rw [entryAt, hState, Option.bind_some, actionEntry, hEdge]
    exact hFold _ (List.ne_nil_of_mem hComplete') (fun other hMem =>
      hOnly other (mem_completeItems.mp hMem).1 (mem_completeItems.mp hMem).2) _

theorem entryAt_of_incomplete {q : StateId}
    (hNone : ∀ item ∈ itemsAt states q, g.next? item ≠ none) (s : Symbol) :
    g.entryAt states q s = (edge? states q s).map .shift := by
  cases hState : states[q.toNat]? with
  | none => simp [entryAt, edge?, hState]
  | some state =>
    have hAt : itemsAt states q = state.items := by simp [itemsAt, hState]
    have hEmpty : g.completeItems state.items = [] := by
      refine List.eq_nil_iff_forall_not_mem.mpr fun item hItem => ?_
      obtain ⟨hMem, hComplete⟩ := mem_completeItems.mp hItem
      exact hNone item (hAt ▸ hMem) hComplete
    simp [entryAt, edge?, hState, actionEntry, hEmpty]

/-- Where all items that shift a symbol are of one precedence, that is the precedence of the shift. -/
theorem shiftPrecedence_eq {items : List LrItem} {s : Symbol} {level : Int} {item : LrItem}
    (hItem : item ∈ items) (hNext : g.next? item = some s)
    (hAll : ∀ other ∈ items, g.next? other = some s →
      ((g.productions[other.production]?).map (·.precedence)).getD 0 = level) :
    g.shiftPrecedence items s = level := by
  have hMax : ((items.filter fun item => g.next? item == some s).map fun item =>
      ((g.productions[item.production]?).map (·.precedence)).getD 0).max? = some level := by
    rw [List.max?_eq_some_iff]
    constructor
    · exact List.mem_map.mpr ⟨item, List.mem_filter.mpr ⟨hItem, by simp [hNext]⟩, hAll item hItem hNext⟩
    · intro level' hLevel
      obtain ⟨other, hOther, rfl⟩ := List.mem_map.mp hLevel
      obtain ⟨hMem, hShift⟩ := List.mem_filter.mp hOther
      exact Int.le_of_eq (hAll other hMem (by simpa using hShift))
  rw [shiftPrecedence, hMax]
  rfl

theorem entryAt_shift {q q' : StateId} {s : Symbol} (h : g.entryAt states q s = some (.shift q')) :
    edge? states q s = some q' := by
  obtain ⟨state, hState, hEntry⟩ := Option.bind_eq_some_iff.mp h
  rcases List.mem_append.mp (mem_offers_of_actionEntry hEntry) with hMem | hMem
  · have hTarget : state.target? s = some q' := by simpa using hMem
    simp [edge?, hState, hTarget]
  · obtain ⟨item, _, hOffer⟩ := List.mem_filterMap.mp hMem
    rw [offer?] at hOffer
    grind

theorem entryAt_reduce {q : StateId} {s : Symbol} {id : ProductionId}
    (h : g.entryAt states q s = some (.reduce id)) :
    ∃ (item : LrItem) (p : LoweredProduction), item ∈ itemsAt states q ∧ g.next? item = none ∧
      g.productions[item.production]? = some p ∧ item.production.toUInt16 = id ∧
      (followOf g.follow p.lhs).has s.index = true := by
  obtain ⟨state, hState, hEntry⟩ := Option.bind_eq_some_iff.mp h
  rcases List.mem_append.mp (mem_offers_of_actionEntry hEntry) with hMem | hMem
  · simp at hMem
  · obtain ⟨item, hItem, hOffer⟩ := List.mem_filterMap.mp hMem
    obtain ⟨hItems, hComplete⟩ := mem_completeItems.mp hItem
    rw [offer?] at hOffer
    have hAt : itemsAt states q = state.items := by simp [itemsAt, hState]
    split at hOffer
    · split at hOffer <;> simp at hOffer
    · split at hOffer
      · cases hOffer
      next p hp =>
        split at hOffer
        next hFollow => exact ⟨item, p, hAt ▸ hItems, hComplete, hp, by simpa using hOffer, hFollow⟩
        next => cases hOffer

theorem entryAt_accept {q : StateId} {s : Symbol} (h : g.entryAt states q s = some .accept) :
    s = .eof ∧ ∃ item ∈ itemsAt states q, g.next? item = none ∧ item.production = g.startRule := by
  obtain ⟨state, hState, hEntry⟩ := Option.bind_eq_some_iff.mp h
  rcases List.mem_append.mp (mem_offers_of_actionEntry hEntry) with hMem | hMem
  · simp at hMem
  · obtain ⟨item, hItem, hOffer⟩ := List.mem_filterMap.mp hMem
    obtain ⟨hItems, hComplete⟩ := mem_completeItems.mp hItem
    have hAt : itemsAt states q = state.items := by simp [itemsAt, hState]
    rw [offer?] at hOffer
    split at hOffer
    next hStart =>
      split at hOffer
      next hEnd => exact ⟨hEnd, item, hAt ▸ hItems, hComplete, hStart⟩
      next => cases hOffer
    next =>
      split at hOffer
      · cases hOffer
      · split at hOffer <;> simp at hOffer

section Free

variable (hFree : g.ConflictFree states)
include hFree

theorem entryAt_of_edge? {q q' : StateId} {s : Symbol} (hTerm : g.isTerminal s = true)
    (hEdge : edge? states q s = some q') : g.entryAt states q s = some (.shift q') := by
  obtain ⟨state, hState, hTarget⟩ := Option.bind_eq_some_iff.mp hEdge
  rw [entryAt, hState]
  exact actionEntry_eq_of_conflictFree hFree (Array.mem_of_getElem? hState) hTerm
    (List.mem_append_left _ (by simp [hTarget]))

theorem entryAt_of_complete {q : StateId} {s : Symbol} {item : LrItem} {a : Action}
    (hTerm : g.isTerminal s = true) (hItem : item ∈ itemsAt states q) (hComplete : g.next? item = none)
    (hOffer : g.offer? g.follow s item = some a) : g.entryAt states q s = some a := by
  rw [itemsAt] at hItem
  cases hState : states[q.toNat]? with
  | none => simp [hState] at hItem
  | some state =>
    simp only [hState, Option.map_some, Option.getD_some] at hItem
    rw [entryAt, hState]
    exact actionEntry_eq_of_conflictFree hFree (Array.mem_of_getElem? hState) hTerm
      (List.mem_append_right _ (List.mem_filterMap.mpr ⟨item, mem_completeItems.mpr ⟨hItem, hComplete⟩, hOffer⟩))

end Free

end LoweredGrammar
end Reparse
