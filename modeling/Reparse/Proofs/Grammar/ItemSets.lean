import Reparse.Grammar.Build
import Mathlib
/-!
# The automaton of item sets

What the item sets of a grammar are, apart from the order in which they are found. `closure` is closed
under the productions of the nonterminals after a dot, and `itemStates` answers with an `ItemAutomaton`:
every state is the closure of its kernel, and every symbol after a dot leads to the state of the
advanced kernel.
-/
namespace Reparse
namespace LoweredGrammar

variable {g : LoweredGrammar}

/-! ## Closures -/

theorem mem_initialItems {s : Symbol} {item : LrItem} :
    item ∈ g.initialItems s ↔ ∃ p, g.productions[item.production]? = some p ∧ p.lhs = s ∧ item.dot = 0 := by
  obtain ⟨i, dot⟩ := item
  simp only [initialItems, List.mem_map, List.mem_filter, Prod.exists, List.mem_zipIdx_iff_getElem?,
    Array.getElem?_toList, beq_iff_eq, LrItem.mk.injEq]
  constructor
  · rintro ⟨p, _, ⟨hp, hLhs⟩, rfl, rfl⟩
    exact ⟨p, hp, hLhs, rfl⟩
  · rintro ⟨p, hp, hLhs, rfl⟩
    exact ⟨p, i, ⟨hp, hLhs⟩, rfl, rfl⟩

/-- The productions whose left-hand sides are still to be expanded. -/
def unexpanded (g : LoweredGrammar) (expanded : List Symbol) : Nat :=
  (g.productions.toList.filter fun p => !expanded.contains p.lhs).length

theorem length_initialItems_add_unexpanded {expanded : List Symbol} {s : Symbol}
    (h : expanded.contains s = false) :
    (g.initialItems s).length + g.unexpanded (s :: expanded) = g.unexpanded expanded := by
  have hInitial : (g.initialItems s).length = (g.productions.toList.filter fun p => p.lhs == s).length := by
    have hZip (l : List LoweredProduction) (k : Nat) :
        ((l.zipIdx k).filter fun q => q.1.lhs == s).length = (l.filter fun p => p.lhs == s).length := by
      induction l generalizing k with
      | nil => rfl
      | cons p rest ih => by_cases hp : p.lhs == s <;> simp [List.zipIdx_cons, hp, ih]
    simpa [initialItems] using hZip g.productions.toList 0
  have hSplit (l : List LoweredProduction) :
      (l.filter fun p => p.lhs == s).length + (l.filter fun p => !(s :: expanded).contains p.lhs).length
        = (l.filter fun p => !expanded.contains p.lhs).length := by
    induction l with
    | nil => rfl
    | cons p rest ih =>
      by_cases hp : p.lhs = s
      · simp only [List.filter_cons, hp, beq_self_eq_true, List.contains_cons, Bool.true_or, Bool.not_true,
          h, Bool.not_false, if_true, List.length_cons, Bool.false_eq_true, if_false] at ih ⊢
        omega
      · have hBeq : (p.lhs == s) = false := by simpa using hp
        simp only [List.filter_cons, hBeq, List.contains_cons, Bool.false_or, Bool.false_eq_true,
          if_false] at ih ⊢
        split
        · simp only [List.length_cons]; omega
        · exact ih
  rw [hInitial]
  exact hSplit g.productions.toList

theorem mem_closeItems_of_mem {item : LrItem} (fuel : Nat) (expanded : List Symbol) (items : List LrItem)
    (h : item ∈ items) : item ∈ g.closeItems fuel expanded items := by
  induction fuel generalizing expanded items with
  | zero => simpa only [closeItems] using h
  | succ fuel ih =>
    cases items with
    | nil => cases h
    | cons first rest =>
      have hRest (more : List LrItem) : item = first ∨ item ∈ rest ++ more := by
        rcases List.mem_cons.mp h with h | h
        · exact .inl h
        · exact .inr (List.mem_append_left _ h)
      rw [closeItems]
      split
      · split
        · exact List.mem_cons.mpr ((hRest []).imp_right fun h => ih _ _ (by simpa using h))
        · exact List.mem_cons.mpr ((hRest _).imp_right fun h => ih _ _ h)
      · exact List.mem_cons.mpr ((hRest []).imp_right fun h => ih _ _ (by simpa using h))

/-- Every item beyond the given ones begins a production of a nonterminal after a dot. -/
theorem origin_of_mem_closeItems {item : LrItem} (fuel : Nat) (expanded : List Symbol) (items : List LrItem)
    (h : item ∈ g.closeItems fuel expanded items) :
    item ∈ items ∨ ∃ s, item ∈ g.initialItems s ∧ g.isTerminal s = false ∧
      ∃ from_ ∈ g.closeItems fuel expanded items, g.next? from_ = some s := by
  induction fuel generalizing expanded items with
  | zero => exact .inl (by simpa [closeItems] using h)
  | succ fuel ih =>
    cases items with
    | nil => simp [closeItems] at h
    | cons first rest =>
      rw [closeItems] at h ⊢
      split at h
      next s hNext =>
        split at h
        · rcases List.mem_cons.mp h with rfl | h
          · exact .inl List.mem_cons_self
          · rcases ih _ _ h with h | ⟨s', hItem, hTerm, source, hSource, hNext'⟩
            · exact .inl (List.mem_cons_of_mem _ h)
            · exact .inr ⟨s', hItem, hTerm, source, by simp_all, hNext'⟩
        next hNew =>
          simp only [Bool.or_eq_true, not_or, Bool.not_eq_true] at hNew
          rcases List.mem_cons.mp h with rfl | h
          · exact .inl List.mem_cons_self
          · rcases ih _ _ h with h | ⟨s', hItem, hTerm, source, hSource, hNext'⟩
            · rcases List.mem_append.mp h with h | h
              · exact .inl (List.mem_cons_of_mem _ h)
              · exact .inr ⟨s, h, hNew.1, first, by simp_all, hNext⟩
            · exact .inr ⟨s', hItem, hTerm, source, by simp_all, hNext'⟩
      next hNext =>
        rcases List.mem_cons.mp h with rfl | h
        · exact .inl List.mem_cons_self
        · rcases ih _ _ h with h | ⟨s', hItem, hTerm, source, hSource, hNext'⟩
          · exact .inl (List.mem_cons_of_mem _ h)
          · exact .inr ⟨s', hItem, hTerm, source, by simp_all, hNext'⟩

/-- With enough fuel, every nonterminal after a dot has been expanded. -/
theorem closeItems_closed {item start : LrItem} {s : Symbol} (fuel : Nat) (expanded : List Symbol)
    (items : List LrItem) (hFuel : items.length + g.unexpanded expanded ≤ fuel)
    (hItem : item ∈ g.closeItems fuel expanded items) (hNext : g.next? item = some s)
    (hTerm : g.isTerminal s = false) (hStart : start ∈ g.initialItems s) :
    s ∈ expanded ∨ start ∈ g.closeItems fuel expanded items := by
  induction fuel generalizing expanded items with
  | zero =>
    obtain rfl : items = [] := List.length_eq_zero_iff.mp (by omega)
    simp [closeItems] at hItem
  | succ fuel ih =>
    cases items with
    | nil => simp [closeItems] at hItem
    | cons first rest =>
      simp only [List.length_cons] at hFuel
      rw [closeItems] at hItem ⊢
      split at hItem
      next s' hNext' =>
        split at hItem
        next hOld =>
          rw [if_pos hOld]
          rcases List.mem_cons.mp hItem with rfl | hItem
          · obtain rfl : s' = s := by simpa [hNext'] using hNext
            simp only [hTerm, Bool.false_or, List.contains_iff_mem] at hOld
            exact .inl hOld
          · exact (ih _ _ (by omega) hItem).imp_right (List.mem_cons_of_mem _)
        next hNew =>
          rw [if_neg hNew]
          simp only [Bool.or_eq_true, not_or, Bool.not_eq_true] at hNew
          have hCount := length_initialItems_add_unexpanded (g := g) hNew.2
          have hFuel' : (rest ++ g.initialItems s').length + g.unexpanded (s' :: expanded) ≤ fuel := by
            rw [List.length_append]; omega
          have hExpanded (h : s = s') : start ∈ g.closeItems fuel (s' :: expanded) (rest ++ g.initialItems s') :=
            mem_closeItems_of_mem _ _ _ (List.mem_append_right _ (h ▸ hStart))
          rcases List.mem_cons.mp hItem with rfl | hItem
          · obtain rfl : s' = s := by simpa [hNext'] using hNext
            exact .inr (List.mem_cons_of_mem _ (hExpanded rfl))
          · rcases ih _ _ hFuel' hItem with h | h
            · rcases List.mem_cons.mp h with h | h
              · exact .inr (List.mem_cons_of_mem _ (hExpanded h))
              · exact .inl h
            · exact .inr (List.mem_cons_of_mem _ h)
      next hNext' =>
        rcases List.mem_cons.mp hItem with rfl | hItem
        · simp [hNext'] at hNext
        · exact (ih _ _ (by omega) hItem).imp_right (List.mem_cons_of_mem _)

theorem mem_closure_of_mem {item : LrItem} {kernel : List LrItem} (h : item ∈ kernel) :
    item ∈ g.closure kernel :=
  mem_closeItems_of_mem _ _ _ h

theorem closure_closed {item start : LrItem} {kernel : List LrItem} {s : Symbol}
    (hItem : item ∈ g.closure kernel) (hNext : g.next? item = some s) (hTerm : g.isTerminal s = false)
    (hStart : start ∈ g.initialItems s) : start ∈ g.closure kernel := by
  have hFuel : kernel.length + g.unexpanded [] ≤ kernel.length + g.productions.size :=
    Nat.add_le_add_left (List.length_filter_le _ _) _
  exact (closeItems_closed _ _ _ hFuel hItem hNext hTerm hStart).resolve_left (by simp)

theorem origin_of_mem_closure {item : LrItem} {kernel : List LrItem} (h : item ∈ g.closure kernel) :
    item ∈ kernel ∨ ∃ s, item ∈ g.initialItems s ∧ g.isTerminal s = false ∧
      ∃ source ∈ g.closure kernel, g.next? source = some s :=
  origin_of_mem_closeItems _ _ _ h

/-- What a closure adds has its dot at the start, and is not the start rule. -/
theorem mem_kernel_of_mem_closure {item : LrItem} {kernel : List LrItem} (h : item ∈ g.closure kernel)
    (hItem : item.dot ≠ 0 ∨ item.production = g.startRule) : item ∈ kernel := by
  rcases origin_of_mem_closure h with h | ⟨s, hInitial, _⟩
  · exact h
  · obtain ⟨p, hp, _, hDot⟩ := mem_initialItems.mp hInitial
    have hBound := (Array.getElem?_eq_some_iff.mp hp).1
    rcases hItem with hItem | hItem
    · exact absurd hDot hItem
    · rw [startRule] at hItem
      omega

/-- A closure adds nothing where no nonterminal stands after a dot. -/
theorem closure_eq_self {kernel : List LrItem}
    (hTerm : ∀ item ∈ kernel, ∀ s, g.next? item = some s → g.isTerminal s = true) : g.closure kernel = kernel := by
  have hClose (fuel : Nat) (expanded : List Symbol) : g.closeItems fuel expanded kernel = kernel := by
    induction kernel generalizing fuel with
    | nil => cases fuel <;> rfl
    | cons item rest ih =>
      have hRest := ih fun other hMem => hTerm other (List.mem_cons_of_mem _ hMem)
      cases fuel with
      | zero => rfl
      | succ fuel =>
        rw [closeItems]
        split
        next s hNext => simp [hTerm item List.mem_cons_self s hNext, hRest fuel]
        next => rw [hRest fuel]
  exact hClose _ _

/-! ## Edges -/

theorem mem_kernelAfter {items : List LrItem} {s : Symbol} {item : LrItem} :
    item ∈ g.kernelAfter items s ↔ ∃ source ∈ items, g.next? source = some s ∧ item = source.advance := by
  simp only [kernelAfter, List.mem_eraseDups, List.mem_mergeSort, List.mem_map, List.mem_filter, beq_iff_eq]
  constructor
  · rintro ⟨source, ⟨hMem, hNext⟩, rfl⟩
    exact ⟨source, hMem, hNext, rfl⟩
  · rintro ⟨source, hMem, hNext, rfl⟩
    exact ⟨source, ⟨hMem, hNext⟩, rfl⟩

theorem mem_nextSymbols {items : List LrItem} {s : Symbol} :
    s ∈ g.nextSymbols items ↔ ∃ item ∈ items, g.next? item = some s := by
  simp [nextSymbols]

/-- An edge leads to the number of the advanced kernel. -/
def EdgeFits (g : LoweredGrammar) (items : List LrItem) (kernels : Array (List LrItem))
    (edge : Symbol × StateId) : Prop :=
  kernels[edge.2.toNat]? = some (g.kernelAfter items edge.1)

/-- `after` has the kernels of `before` in their places, and maybe more. -/
def Extends (before after : Array (List LrItem)) : Prop := ∃ more : Array (List LrItem), after = before ++ more

theorem Extends.refl (kernels : Array (List LrItem)) : Extends kernels kernels := ⟨#[], by simp⟩

theorem Extends.trans {a b c : Array (List LrItem)} (hab : Extends a b) (hbc : Extends b c) : Extends a c := by
  obtain ⟨x, rfl⟩ := hab
  obtain ⟨y, rfl⟩ := hbc
  exact ⟨x ++ y, by simp⟩

theorem Extends.push (kernels : Array (List LrItem)) (kernel : List LrItem) :
    Extends kernels (kernels.push kernel) := ⟨#[kernel], by simp⟩

theorem Extends.size_le {a b : Array (List LrItem)} (h : Extends a b) : a.size ≤ b.size := by
  obtain ⟨x, rfl⟩ := h
  simp

theorem Extends.getElem? {a b : Array (List LrItem)} (h : Extends a b) {i : Nat} {kernel : List LrItem}
    (hi : a[i]? = some kernel) : b[i]? = some kernel := by
  obtain ⟨x, rfl⟩ := h
  have hBound := (Array.getElem?_eq_some_iff.mp hi).1
  rwa [Array.getElem?_append_left hBound]

theorem EdgeFits.mono {items : List LrItem} {a b : Array (List LrItem)} {edge : Symbol × StateId}
    (h : g.EdgeFits items a edge) (hab : Extends a b) : g.EdgeFits items b edge :=
  hab.getElem? h

/-- What is known of a list of edges and the kernels after them. -/
structure EdgesFrom (g : LoweredGrammar) (items : List LrItem) (symbols : List Symbol)
    (kernels : Array (List LrItem)) (edges : List (Symbol × StateId)) (after : Array (List LrItem)) : Prop where
  symbols_eq : edges.map (·.1) = symbols
  fits : ∀ edge ∈ edges, g.EdgeFits items after edge
  grown : Extends kernels after
  size_le : after.size ≤ maxStates
  reached : ∀ i kernel, kernels.size ≤ i → after[i]? = some kernel → ∃ s ∈ symbols, kernel = g.kernelAfter items s

theorem getElem?_of_idxOf? {kernels : Array (List LrItem)} {kernel : List LrItem} {i : Nat}
    (h : kernels.idxOf? kernel = some i) : kernels[i]? = some kernel := by
  obtain ⟨kernels⟩ := kernels
  rw [List.idxOf?_toArray] at h
  obtain ⟨hBound, hAt, _⟩ := List.idxOf?_eq_some_iff.mp h
  rw [← Array.getElem?_toList, List.getElem?_eq_getElem hBound, hAt]

theorem edgesFrom_eq_ok {items : List LrItem} {symbols : List Symbol} {kernels after : Array (List LrItem)}
    {edges : List (Symbol × StateId)} (hSize : kernels.size ≤ maxStates)
    (h : g.edgesFrom items symbols kernels = .ok (edges, after)) :
    g.EdgesFrom items symbols kernels edges after := by
  induction symbols generalizing kernels edges after with
  | nil =>
    simp only [edgesFrom, Except.ok.injEq, Prod.mk.injEq] at h
    obtain ⟨rfl, rfl⟩ := h
    refine ⟨rfl, by simp, .refl _, hSize, ?_⟩
    intro i kernel hi hKernel
    have := (Array.getElem?_eq_some_iff.mp hKernel).1
    omega
  | cons s rest ih =>
    -- The kernel is known already or becomes the last one; the remaining edges are the same either way.
    have hStep (target : Nat) (mid : Array (List LrItem)) (hMid : mid[target]? = some (g.kernelAfter items s))
        (hSizeMid : mid.size ≤ maxStates) (hGrown : Extends kernels mid)
        (hReached : ∀ i kernel, kernels.size ≤ i → mid[i]? = some kernel → kernel = g.kernelAfter items s)
        (hRest : (g.edgesFrom items rest mid).bind (fun r =>
          .ok ((s, target.toUInt16) :: r.1, r.2)) = .ok (edges, after)) :
        g.EdgesFrom items (s :: rest) kernels edges after := by
      match hEq : g.edgesFrom items rest mid with
      | .error e =>
        rw [hEq] at hRest
        cases hRest
      | .ok (edges', after') =>
        rw [hEq] at hRest
        simp only [Except.bind, Except.ok.injEq, Prod.mk.injEq] at hRest
        obtain ⟨rfl, rfl⟩ := hRest
        obtain ⟨hSymbols, hFits, hGrown', hSize', hReached'⟩ := ih hSizeMid hEq
        have hTarget := (Array.getElem?_eq_some_iff.mp hMid).1
        have hWord : target.toUInt16.toNat = target := by
          simp only [maxStates] at hSizeMid
          exact Nat.mod_eq_of_lt (by omega)
        refine ⟨by simp [hSymbols], ?_, hGrown.trans hGrown', hSize', ?_⟩
        · intro edge hEdge
          rcases List.mem_cons.mp hEdge with rfl | hEdge
          · rw [EdgeFits, hWord]
            exact hGrown'.getElem? hMid
          · exact hFits edge hEdge
        · intro i kernel hi hKernel
          by_cases hOld : i < mid.size
          · obtain ⟨more, rfl⟩ := hGrown'
            rw [Array.getElem?_append_left hOld] at hKernel
            exact ⟨s, List.mem_cons_self, hReached i kernel hi hKernel⟩
          · obtain ⟨s', hs', rfl⟩ := hReached' i kernel (by omega) hKernel
            exact ⟨s', List.mem_cons_of_mem _ hs', rfl⟩
    rw [edgesFrom] at h
    split at h
    next target hFound =>
      refine hStep target kernels (getElem?_of_idxOf? hFound) hSize (.refl _) ?_ h
      intro i kernel hi hKernel
      have := (Array.getElem?_eq_some_iff.mp hKernel).1
      omega
    next hMissing =>
      split at h
      · cases h
      next hRoom =>
        refine hStep kernels.size (kernels.push (g.kernelAfter items s)) (by simp) ?_ (.push _ _) ?_ h
        · simp only [Array.size_push]; omega
        · intro i kernel hi hKernel
          have hBound := (Array.getElem?_eq_some_iff.mp hKernel).1
          simp only [Array.size_push] at hBound
          obtain rfl : i = kernels.size := by omega
          simpa using hKernel.symm

/-! ## States -/

/-- Some states that are done, with the kernels found so far: each state is the closure of the kernel in
its place and has all its edges. The first kernel is the start rule's; every other one is reached from
an earlier state. -/
structure Building (g : LoweredGrammar) (states : Array ItemState) (kernels : Array (List LrItem)) : Prop where
  size_le : states.size ≤ kernels.size
  kernels_le : kernels.size ≤ maxStates
  start : kernels[0]? = some [⟨g.startRule, 0⟩]
  items : ∀ (i : Nat) (state : ItemState), states[i]? = some state →
    ∃ kernel, kernels[i]? = some kernel ∧ state.items = g.closure kernel
  edges : ∀ (i : Nat) (state : ItemState), states[i]? = some state →
    state.edges.map (·.1) = g.nextSymbols state.items ∧ ∀ edge ∈ state.edges, g.EdgeFits state.items kernels edge
  reached : ∀ (i : Nat) (kernel : List LrItem), 0 < i → kernels[i]? = some kernel →
    ∃ (j : Nat) (state : ItemState) (s : Symbol), j < i ∧ states[j]? = some state ∧
      s ∈ g.nextSymbols state.items ∧ kernel = g.kernelAfter state.items s

/-- There is a state for every kernel. -/
structure ItemAutomaton (g : LoweredGrammar) (states : Array ItemState) (kernels : Array (List LrItem)) :
    Prop extends g.Building states kernels where
  size_eq : kernels.size = states.size

theorem Building.push {states : Array ItemState} {kernels after : Array (List LrItem)} {kernel : List LrItem}
    {edges : List (Symbol × StateId)} (h : g.Building states kernels)
    (hKernel : kernels[states.size]? = some kernel)
    (hEdges : g.EdgesFrom (g.closure kernel) (g.nextSymbols (g.closure kernel)) kernels edges after) :
    g.Building (states.push ⟨g.closure kernel, edges⟩) after := by
  have hBound := (Array.getElem?_eq_some_iff.mp hKernel).1
  have hGrown := hEdges.grown.size_le
  refine ⟨by simp only [Array.size_push]; omega, hEdges.size_le, hEdges.grown.getElem? h.start, ?_, ?_, ?_⟩
  · intro i state hState
    rw [Array.getElem?_push] at hState
    split at hState
    next hi =>
      obtain rfl := Option.some.inj hState
      exact ⟨kernel, hi ▸ hEdges.grown.getElem? hKernel, rfl⟩
    next =>
      obtain ⟨kernel', hKernel', hItems⟩ := h.items i state hState
      exact ⟨kernel', hEdges.grown.getElem? hKernel', hItems⟩
  · intro i state hState
    rw [Array.getElem?_push] at hState
    split at hState
    next hi =>
      obtain rfl := Option.some.inj hState
      exact ⟨hEdges.symbols_eq, hEdges.fits⟩
    next =>
      obtain ⟨hSymbols, hFits⟩ := h.edges i state hState
      exact ⟨hSymbols, fun edge hEdge => (hFits edge hEdge).mono hEdges.grown⟩
  · intro i other hi hOther
    by_cases hOld : i < kernels.size
    · have hOther' : kernels[i]? = some other := by
        obtain ⟨more, rfl⟩ := hEdges.grown
        rwa [Array.getElem?_append_left hOld] at hOther
      obtain ⟨j, state, s, hj, hState, hs, hEq⟩ := h.reached i other hi hOther'
      have hjBound := (Array.getElem?_eq_some_iff.mp hState).1
      refine ⟨j, state, s, hj, ?_, hs, hEq⟩
      rw [Array.getElem?_push_lt hjBound, ← hState, Array.getElem?_eq_getElem hjBound]
    · obtain ⟨s, hs, hEq⟩ := hEdges.reached i other (by omega) hOther
      exact ⟨states.size, ⟨g.closure kernel, edges⟩, s, by omega, Array.getElem?_push_size, hs, hEq⟩

theorem statesFrom_eq_ok {fuel : Nat} {kernels : Array (List LrItem)} {states result : Array ItemState}
    (hFuel : maxStates < fuel + states.size) (hBuilding : g.Building states kernels)
    (h : g.statesFrom fuel states.size kernels states = .ok result) :
    ∃ kernels, g.ItemAutomaton result kernels := by
  induction fuel generalizing kernels states with
  | zero =>
    have := hBuilding.size_le
    have := hBuilding.kernels_le
    omega
  | succ fuel ih =>
    rw [statesFrom] at h
    split at h
    next hNone =>
      obtain rfl := Except.ok.inj h
      have hLe := Array.getElem?_eq_none_iff.mp hNone
      exact ⟨kernels, hBuilding, Nat.le_antisymm hLe hBuilding.size_le⟩
    next kernel hKernel =>
      dsimp only at h
      match hEq : g.edgesFrom (g.closure kernel) (g.nextSymbols (g.closure kernel)) kernels with
      | .error e =>
        rw [hEq] at h
        cases h
      | .ok (edges, after) =>
        rw [hEq] at h
        have hPush := hBuilding.push hKernel (edgesFrom_eq_ok hBuilding.kernels_le hEq)
        refine ih ?_ hPush ?_
        · simp only [Array.size_push]; omega
        · rw [Array.size_push]
          exact h

theorem itemStates_eq_ok {states : Array ItemState} (h : g.itemStates = .ok states) :
    ∃ kernels, g.ItemAutomaton states kernels := by
  have hFirst : g.Building #[] #[[⟨g.startRule, 0⟩]] := by
    refine ⟨by simp, by simp [maxStates], rfl, by simp, by simp, ?_⟩
    intro i kernel hi hKernel
    have := (Array.getElem?_eq_some_iff.mp hKernel).1
    simp only [List.size_toArray, List.length_cons, List.length_nil] at this
    omega
  exact statesFrom_eq_ok (by simp) hFirst h

/-! ## Walking the automaton -/

/-- The items of a state; none past the last state. -/
def itemsAt (states : Array ItemState) (q : StateId) : List LrItem :=
  ((states[q.toNat]?).map (·.items)).getD []

/-- The state that an edge leads to. -/
def edge? (states : Array ItemState) (q : StateId) (s : Symbol) : Option StateId :=
  (states[q.toNat]?).bind fun state => state.target? s

namespace ItemAutomaton

variable {states : Array ItemState} {kernels : Array (List LrItem)} (h : g.ItemAutomaton states kernels)
include h

theorem size_le_maxStates : states.size ≤ maxStates := h.size_eq ▸ h.kernels_le

theorem size_pos : 0 < states.size := by
  have := (Array.getElem?_eq_some_iff.mp h.start).1
  have := h.size_eq
  omega

theorem itemsAt_eq {q : StateId} (hq : q.toNat < states.size) :
    ∃ kernel, kernels[q.toNat]? = some kernel ∧ itemsAt states q = g.closure kernel := by
  obtain ⟨kernel, hKernel, hItems⟩ := h.items q.toNat _ (Array.getElem?_eq_getElem hq)
  exact ⟨kernel, hKernel, by simp [itemsAt, hq, hItems]⟩

/-- A symbol after a dot leads to the state whose kernel has it before the dot. -/
theorem edge?_of_next {q : StateId} {item : LrItem} {s : Symbol} (hItem : item ∈ itemsAt states q)
    (hNext : g.next? item = some s) : ∃ q', edge? states q s = some q' := by
  rw [itemsAt] at hItem
  match hState : states[q.toNat]? with
  | none => simp [hState] at hItem
  | some state =>
    simp only [hState, Option.map_some, Option.getD_some] at hItem
    have hMem : s ∈ state.edges.map (·.1) := by
      rw [(h.edges _ _ hState).1, mem_nextSymbols]
      exact ⟨item, hItem, hNext⟩
    obtain ⟨edge, hEdge, rfl⟩ := List.mem_map.mp hMem
    have hFind : (state.edges.find? fun e => e.1 == edge.1).isSome :=
      List.find?_isSome.mpr ⟨edge, hEdge, by simp⟩
    obtain ⟨found, hFound⟩ := Option.isSome_iff_exists.mp hFind
    exact ⟨found.2, by simp [edge?, hState, ItemState.target?, hFound]⟩

theorem kernel_of_edge? {q q' : StateId} {s : Symbol} (hEdge : edge? states q s = some q') :
    kernels[q'.toNat]? = some (g.kernelAfter (itemsAt states q) s) ∧ s ∈ g.nextSymbols (itemsAt states q) := by
  obtain ⟨state, hState, hTarget⟩ := Option.bind_eq_some_iff.mp hEdge
  obtain ⟨edge, hFound, rfl⟩ := Option.map_eq_some_iff.mp hTarget
  have hMem := List.mem_of_find?_eq_some hFound
  obtain rfl : edge.1 = s := by simpa using List.find?_some hFound
  obtain ⟨hSymbols, hFits⟩ := h.edges _ _ hState
  have hItems : itemsAt states q = state.items := by simp [itemsAt, hState]
  rw [hItems]
  exact ⟨hFits _ hMem, hSymbols ▸ List.mem_map.mpr ⟨edge, hMem, rfl⟩⟩

theorem edge?_eq_none {q : StateId} {s : Symbol} (hNone : ∀ item ∈ itemsAt states q, g.next? item ≠ some s) :
    edge? states q s = none := by
  refine Option.eq_none_iff_forall_ne_some.mpr fun q' hEdge => ?_
  obtain ⟨item, hItem, hNext⟩ := mem_nextSymbols.mp (h.kernel_of_edge? hEdge).2
  exact hNone item hItem hNext

theorem lt_size_of_edge? {q q' : StateId} {s : Symbol} (hEdge : edge? states q s = some q') :
    q'.toNat < states.size := by
  rw [← h.size_eq]
  exact (Array.getElem?_eq_some_iff.mp (h.kernel_of_edge? hEdge).1).1

theorem itemsAt_edge? {q q' : StateId} {s : Symbol} (hEdge : edge? states q s = some q') :
    itemsAt states q' = g.closure (g.kernelAfter (itemsAt states q) s) := by
  obtain ⟨kernel, hKernel, hItems⟩ := h.itemsAt_eq (h.lt_size_of_edge? hEdge)
  rw [hItems, Option.some.inj (hKernel.symm.trans (h.kernel_of_edge? hEdge).1)]

theorem itemsAt_zero : itemsAt states 0 = g.closure [⟨g.startRule, 0⟩] := by
  obtain ⟨kernel, hKernel, hItems⟩ := h.itemsAt_eq (q := 0) h.size_pos
  rw [hItems, Option.some.inj (hKernel.symm.trans h.start)]

/-- Moving the dot over a symbol follows its edge. -/
theorem advance_mem {q q' : StateId} {item : LrItem} {s : Symbol} (hEdge : edge? states q s = some q')
    (hItem : item ∈ itemsAt states q) (hNext : g.next? item = some s) : item.advance ∈ itemsAt states q' := by
  rw [h.itemsAt_edge? hEdge]
  exact mem_closure_of_mem (mem_kernelAfter.mpr ⟨item, hItem, hNext, rfl⟩)

/-- An item whose dot is not at the start was moved there by the edge into its state. -/
theorem source_of_mem {q q' : StateId} {item : LrItem} {s : Symbol} (hEdge : edge? states q s = some q')
    (hItem : item ∈ itemsAt states q') (hDot : item.dot ≠ 0 ∨ item.production = g.startRule) :
    ∃ source ∈ itemsAt states q, g.next? source = some s ∧ item = source.advance := by
  rw [h.itemsAt_edge? hEdge] at hItem
  exact mem_kernelAfter.mp (mem_kernel_of_mem_closure hItem hDot)

/-- In the first state every dot is at the start. -/
theorem dot_eq_zero {item : LrItem} (hItem : item ∈ itemsAt states 0) : item.dot = 0 := by
  rw [h.itemsAt_zero] at hItem
  by_contra hDot
  have := mem_kernel_of_mem_closure hItem (.inl hDot)
  simp only [List.mem_singleton] at this
  exact hDot (by rw [this])

theorem start_mem : ⟨g.startRule, 0⟩ ∈ itemsAt states 0 := by
  rw [h.itemsAt_zero]
  exact mem_closure_of_mem List.mem_cons_self

theorem expand {q : StateId} {item start : LrItem} {s : Symbol} (hItem : item ∈ itemsAt states q)
    (hNext : g.next? item = some s) (hTerm : g.isTerminal s = false) (hStart : start ∈ g.initialItems s) :
    start ∈ itemsAt states q := by
  by_cases hq : q.toNat < states.size
  · obtain ⟨kernel, _, hItems⟩ := h.itemsAt_eq hq
    rw [hItems] at hItem ⊢
    exact closure_closed hItem hNext hTerm hStart
  · simp [itemsAt, Array.getElem?_eq_none (Nat.le_of_not_lt hq)] at hItem

/-- No edge leads back to the first state. -/
theorem edge?_ne_zero {q q' : StateId} {s : Symbol} (hEdge : edge? states q s = some q') : q' ≠ 0 := by
  rintro rfl
  obtain ⟨item, hItem, hNext⟩ := mem_nextSymbols.mp (h.kernel_of_edge? hEdge).2
  have := h.dot_eq_zero (h.advance_mem hEdge hItem hNext)
  simp [LrItem.advance] at this

/-- Only the first state is about to begin the start rule. -/
theorem eq_zero_of_start_mem {q : StateId} (hItem : ⟨g.startRule, 0⟩ ∈ itemsAt states q) : q = 0 := by
  by_cases hq : q.toNat < states.size
  · obtain ⟨kernel, hKernel, hItems⟩ := h.itemsAt_eq hq
    rw [hItems] at hItem
    have hMem := mem_kernel_of_mem_closure hItem (.inr rfl)
    by_contra hZero
    have hPos : 0 < q.toNat := Nat.pos_of_ne_zero fun h0 => hZero (UInt16.toNat_inj.mp (by simpa using h0))
    obtain ⟨_, state, s, _, _, _, rfl⟩ := h.reached _ _ hPos hKernel
    obtain ⟨source, _, _, hEq⟩ := mem_kernelAfter.mp hMem
    simp [LrItem.advance] at hEq
  · simp [itemsAt, Array.getElem?_eq_none (Nat.le_of_not_lt hq)] at hItem

end ItemAutomaton

end LoweredGrammar
end Reparse
