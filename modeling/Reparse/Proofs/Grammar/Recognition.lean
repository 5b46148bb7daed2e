import Reparse.Proofs.Grammar.Entries
import Reparse.Proofs.Grammar.Terminals
import Reparse.Parse.Recovery
import Mathlib
/-!
# A built table recognizes its grammar

Driving the table of a grammar over terminals and the end of the input comes to the accepting action on
the end if and only if the start symbol derives the terminals. That nothing else is accepted holds of
every table that is built: the symbols that a stack spells derive what was read. That everything
derived is accepted takes a grammar without conflicts: the run follows the derivation.
-/
namespace Reparse

/-! ## Derivations -/

namespace Grammar

/-- One symbol is replaced by the right-hand side of a rule. -/
inductive Rewrites (g : Grammar) : List Symbol → List Symbol → Prop
  | rule {lhs : Symbol} {rhs : List Symbol} (before after : List Symbol) :
    g.Produces lhs rhs → Rewrites g (before ++ lhs :: after) (before ++ rhs ++ after)

/-- Some number of replacements. -/
def Derives (g : Grammar) : List Symbol → List Symbol → Prop := Relation.ReflTransGen g.Rewrites

theorem Derives.append_right {g : Grammar} {a b : List Symbol} (h : g.Derives a b) (c : List Symbol) :
    g.Derives (a ++ c) (b ++ c) := by
  induction h with
  | refl => exact .refl
  | tail _ hStep ih =>
    obtain ⟨before, after, hRule⟩ := hStep
    refine ih.tail ?_
    have := Rewrites.rule before (after ++ c) hRule
    simpa using this

/-- No entry of the action table is wanted for two different actions. -/
def ConflictFree (g : Grammar) : Prop :=
  ∀ l states, g.lower = .ok l → l.itemStates = .ok states → l.ConflictFree states

end Grammar

namespace LoweredGrammar

variable {g : LoweredGrammar}

/-- A derivation of terminals, symbol by symbol. -/
inductive Yields (g : LoweredGrammar) : List Symbol → List Symbol → Prop
  | nil : Yields g [] []
  | terminal {s : Symbol} {rest word : List Symbol} :
    g.isTerminal s = true → Yields g rest word → Yields g (s :: rest) (s :: word)
  | rule {p : LoweredProduction} {rest inner word : List Symbol} :
    p ∈ g.productions → Yields g p.rhs inner → Yields g rest word → Yields g (p.lhs :: rest) (inner ++ word)

theorem Yields.refl {word : List Symbol} (h : ∀ s ∈ word, g.isTerminal s = true) : g.Yields word word := by
  induction word with
  | nil => exact .nil
  | cons s rest ih => exact .terminal (h s List.mem_cons_self) (ih fun x hx => h x (List.mem_cons_of_mem _ hx))

theorem Yields.append {a b u v : List Symbol} (ha : g.Yields a u) (hb : g.Yields b v) :
    g.Yields (a ++ b) (u ++ v) := by
  induction ha with
  | nil => exact hb
  | terminal hs _ ih => exact .terminal hs ih
  | rule hp hInner _ _ ih => rw [List.append_assoc]; exact .rule hp hInner ih

theorem Yields.split {a b w : List Symbol} (h : g.Yields (a ++ b) w) :
    ∃ u v, w = u ++ v ∧ g.Yields a u ∧ g.Yields b v := by
  induction a generalizing w with
  | nil => exact ⟨[], w, rfl, .nil, h⟩
  | cons s a ih =>
    cases h with
    | terminal hs hRest =>
      obtain ⟨u, v, rfl, hu, hv⟩ := ih hRest
      exact ⟨s :: u, v, rfl, .terminal hs hu, hv⟩
    | rule hp hInner hRest =>
      obtain ⟨u, v, rfl, hu, hv⟩ := ih hRest
      exact ⟨_ ++ u, v, by simp, .rule hp hInner hu, hv⟩

theorem Yields.terminals {symbols word : List Symbol} (h : g.Yields symbols word) :
    ∀ s ∈ word, g.isTerminal s = true := by
  induction h with
  | nil => simp
  | terminal hs _ ih => simpa [hs] using ih
  | rule _ _ _ ihInner ihRest =>
    intro s hs
    rcases List.mem_append.mp hs with hs | hs
    · exact ihInner s hs
    · exact ihRest s hs

theorem yields_of_derives {g : Grammar} {l : LoweredGrammar} (hLowers : g.Lowers l) {a w : List Symbol}
    (h : g.Derives a w) (hw : ∀ s ∈ w, l.isTerminal s = true) : l.Yields a w := by
  refine Relation.ReflTransGen.head_induction_on h (.refl hw) ?_
  rintro _ _ ⟨before, after, hRule⟩ _ ih
  obtain ⟨p, hp, rfl, rfl⟩ := hLowers.produces_iff.mp hRule
  obtain ⟨_, v, rfl, hLeft, hv⟩ := ih.split
  obtain ⟨u, inner, rfl, hu, hInner⟩ := hLeft.split
  rw [List.append_assoc]
  exact hu.append (.rule hp hInner hv)

/-! ### Derivations and the sets of terminals -/

theorem Yields.nullable {b : Begins} (hb : g.BeginsClosed b) {symbols word : List Symbol}
    (h : g.Yields symbols word) (hEmpty : word = []) : (b.ofSeq symbols).2 = true := by
  induction h with
  | nil => rfl
  | terminal _ _ _ => cases hEmpty
  | rule hp _ _ ihInner ihRest =>
    obtain ⟨hInner, hRest⟩ := List.append_eq_nil_iff.mp hEmpty
    exact ofSeq_cons_nullable (hb.nullable_lhs _ hp (ihInner hInner)) (ihRest hRest)

theorem Yields.first {b : Begins} (hb : g.BeginsClosed b) {symbols word : List Symbol} {s : Symbol}
    (h : g.Yields symbols word) (hHead : word.head? = some s) : (b.ofSeq symbols).1.has s.index = true := by
  induction h with
  | nil => cases hHead
  | terminal hs _ _ =>
    obtain rfl := Option.some.inj hHead
    exact ofSeq_cons_has (.inl (hb.terminal _ hs))
  | @rule p rest inner word hp hInner _ ihInner ihRest =>
    cases inner with
    | cons s' inner => exact ofSeq_cons_has (.inl (hb.first_lhs p hp _ (ihInner hHead)))
    | nil =>
      exact ofSeq_cons_has (.inr ⟨hb.nullable_lhs p hp (hInner.nullable hb rfl), ihRest hHead⟩)

end LoweredGrammar

/-! ## Driving a table -/

namespace Table

/-- One move on a stack of states, the top one first, before the symbols that are still to be read. -/
inductive Moves (t : Table) : List StateId × List Symbol → List StateId × List Symbol → Prop
  | shift {states : List StateId} {s : Symbol} {rest : List Symbol} {next : StateId} :
    t.action (states.headD 0) s = some (.shift next) → Moves t (states, s :: rest) (next :: states, rest)
  | reduce {states below : List StateId} {s : Symbol} {rest : List Symbol} {id : ProductionId} {next : StateId} :
    t.action (states.headD 0) s = some (.reduce id) →
    below = RecoveryContext.popStates states (t.production id).childCount.toNat →
    t.goto (below.headD 0) (t.production id).lhs = some next → Moves t (states, s :: rest) (next :: below, s :: rest)

/-- From state 0 the table reads all of `word` and accepts before the end of the input. -/
def Accepts (t : Table) (word : List Symbol) : Prop :=
  ∃ states, Relation.ReflTransGen t.Moves ([0], word ++ [.eof]) (states, [.eof]) ∧
    t.action (states.headD 0) .eof = some .accept

/-- A trial succeeds if some moves lead past all symbols or to the accepting action. -/
theorem exists_tryShift_iff (t : Table) (states : List StateId) (symbols : List Symbol) :
    (∃ steps, RecoveryContext.tryShift t steps states symbols = true) ↔
      ∃ states' symbols', Relation.ReflTransGen t.Moves (states, symbols) (states', symbols') ∧
        (symbols' = [] ∨ ∃ s rest, symbols' = s :: rest ∧ t.action (states'.headD 0) s = some .accept) := by
  constructor
  · rintro ⟨steps, h⟩
    induction steps generalizing states symbols with
    | zero =>
      cases symbols with
      | nil => exact ⟨states, [], .refl, .inl rfl⟩
      | cons s rest => simp [RecoveryContext.tryShift] at h
    | succ steps ih =>
      cases symbols with
      | nil => exact ⟨states, [], .refl, .inl rfl⟩
      | cons s rest =>
        rw [RecoveryContext.tryShift] at h
        split at h
        next next hAction =>
          obtain ⟨states', symbols', hMoves, hEnd⟩ := ih _ _ h
          exact ⟨states', symbols', .head (.shift hAction) hMoves, hEnd⟩
        next id hAction =>
          dsimp only at h
          split at h
          next next hGoto =>
            obtain ⟨states', symbols', hMoves, hEnd⟩ := ih _ _ h
            exact ⟨states', symbols', .head (.reduce hAction rfl hGoto) hMoves, hEnd⟩
          next => cases h
        next hAction => exact ⟨states, s :: rest, .refl, .inr ⟨s, rest, rfl, hAction⟩⟩
        next => cases h
  · rintro ⟨states', symbols', hMoves, hEnd⟩
    refine Relation.ReflTransGen.head_induction_on (motive := fun config _ =>
      ∃ steps, RecoveryContext.tryShift t steps config.1 config.2 = true) hMoves ?_ ?_
    · rcases hEnd with rfl | ⟨s, rest, rfl, hAction⟩
      · exact ⟨0, by simp [RecoveryContext.tryShift]⟩
      · exact ⟨1, by simp only [RecoveryContext.tryShift, hAction]⟩
    · rintro _ _ (hAction | ⟨hAction, rfl, hGoto⟩) _ ⟨steps, ih⟩
      · exact ⟨steps + 1, by simp only [RecoveryContext.tryShift, hAction, ih]⟩
      · exact ⟨steps + 1, by simp only [RecoveryContext.tryShift, hAction, hGoto, ih]⟩

end Table

namespace Grammar.Built

open LoweredGrammar

variable {g : Grammar} {l : LoweredGrammar} {states : Array ItemState} {t : Table}
  {kernels : Array (List LrItem)} (h : g.Built l states t)
include h

theorem isTerminal_eq (s : Symbol) : t.isTerminal s = l.isTerminal s := by
  rw [h.table, isTerminal_toTable]

theorem start_eq : t.start = l.start := by rw [h.table]; rfl

theorem productions_size : t.productions.size = l.productions.size := by rw [h.table]; simp [toTable]

variable (hAutomaton : l.ItemAutomaton states kernels)
include hAutomaton

theorem action_eq {q : StateId} {s : Symbol} (hs : l.isTerminal s = true) :
    t.action q s = l.entryAt states q s := by
  rw [h.table, action_toTable hAutomaton.size_le_maxStates q hs]

/-- An action is one on a terminal, and an entry of the automaton. -/
theorem entryAt_of_action {q : StateId} {s : Symbol} {a : Action} (hAction : t.action q s = some a) :
    l.isTerminal s = true ∧ l.entryAt states q s = some a := by
  cases hs : l.isTerminal s with
  | false => rw [action_eq_none_of_nonterminal (by rw [h.isTerminal_eq, hs])] at hAction; cases hAction
  | true => exact ⟨rfl, (h.action_eq hAutomaton hs).symm.trans hAction⟩

omit hAutomaton in
theorem goto_eq {q : StateId} {s : Symbol} (hs : l.isTerminal s = false) (hBound : s.index < l.symbols.size) :
    t.goto q s = edge? states q s := by
  rw [h.table, goto_toTable hs hBound]

omit hAutomaton in
theorem edge?_of_goto {q q' : StateId} {s : Symbol} (hGoto : t.goto q s = some q') : edge? states q s = some q' := by
  by_cases hNone : t.isTerminal s = true ∨ t.symbols.size ≤ s.index
  · rw [goto_eq_none hNone] at hGoto
    cases hGoto
  · have hSize : t.symbols.size = l.symbols.size := by rw [h.table]; rfl
    rw [not_or, Bool.not_eq_true, h.isTerminal_eq, Nat.not_le, hSize] at hNone
    rw [← h.goto_eq hNone.1 hNone.2, hGoto]

/-- The production that a complete item reduces by, as the table records it. -/
theorem production_eq (hCount : t.productions.size < 65535) {q : StateId} {item : LrItem} {p : LoweredProduction}
    (hItem : item ∈ itemsAt states q) (hComplete : l.next? item = none)
    (hp : l.productions[item.production]? = some p) :
    (t.production item.production.toUInt16).lhs = p.lhs ∧
      (t.production item.production.toUInt16).childCount.toNat = p.rhs.length := by
  have hBound := (Array.getElem?_eq_some_iff.mp hp).1
  rw [h.productions_size] at hCount
  have hId : item.production.toUInt16.toNat = item.production := Nat.mod_eq_of_lt (by omega)
  have hLength := hAutomaton.length_rhs_lt hItem hComplete
  have hNot : item.production ≠ l.startRule := by rw [startRule]; omega
  rw [rhs, if_neg hNot, hp] at hLength
  have hProduction : t.production item.production.toUInt16 = ⟨p.lhs, p.rhs.length.toUInt16, p.fields⟩ := by
    rw [Table.production, hId, h.table]
    simp [toTable, hp]
  rw [hProduction]
  exact ⟨rfl, Nat.mod_eq_of_lt hLength⟩

end Grammar.Built

namespace LoweredGrammar

variable {g : LoweredGrammar} {states : Array ItemState}

theorem rhs_of_production {g : LoweredGrammar} {production : Nat} {p : LoweredProduction}
    (hp : g.productions[production]? = some p) : g.rhs production = p.rhs := by
  have hBound := (Array.getElem?_eq_some_iff.mp hp).1
  rw [rhs, if_neg (by rw [startRule]; omega), hp]
  rfl

theorem rhs_startRule (g : LoweredGrammar) : g.rhs g.startRule = [g.start] := by
  rw [rhs, if_pos rfl]

end LoweredGrammar

/-! ## What is accepted is derived -/

section Soundness

open LoweredGrammar

variable {g : Grammar} {l : LoweredGrammar} {states : Array ItemState} {t : Table}
  {kernels : Array (List LrItem)}

/-- The stack spells symbols that derive what has been read of `input`. -/
def Reads (g : Grammar) (states : Array ItemState) (input : List Symbol)
    (config : List StateId × List Symbol) : Prop :=
  ∃ symbols word, Spells states config.1 symbols ∧ word ++ config.2 = input ∧ g.Derives symbols.reverse word

theorem reads_step (h : g.Built l states t) (hAutomaton : l.ItemAutomaton states kernels)
    (hCount : t.productions.size < 65535) {input : List Symbol} {a b : List StateId × List Symbol}
    (ha : Reads g states input a) (hMove : t.Moves a b) : Reads g states input b := by
  obtain ⟨symbols, word, hSpells, rfl, hDerives⟩ := ha
  cases hMove with
  | @shift stack s rest next hAction =>
    obtain ⟨_, hEntry⟩ := h.entryAt_of_action hAutomaton hAction
    cases stack with
    | nil => cases hSpells
    | cons q stack =>
      refine ⟨s :: symbols, word ++ [s], .edge hSpells (entryAt_shift hEntry), by simp, ?_⟩
      rw [List.reverse_cons]
      exact hDerives.append_right [s]
  | @reduce stack below s rest id next hAction hBelow hGoto =>
    obtain ⟨_, hEntry⟩ := h.entryAt_of_action hAutomaton hAction
    cases stack with
    | nil => cases hSpells
    | cons q stack =>
      obtain ⟨item, p, hItem, hComplete, hp, rfl, _⟩ := entryAt_reduce hEntry
      obtain ⟨hLhs, hChildren⟩ := h.production_eq hAutomaton hCount hItem hComplete hp
      have hRhs := rhs_of_production hp
      have hDot := hAutomaton.dot_eq_length hItem hComplete
      obtain ⟨q₀, rest₀, symbols₀, hDrop, hSymbols, hSpells₀, _⟩ := hAutomaton.retrace hSpells hItem
      rw [hDot, hRhs] at hDrop
      rw [hDot, hRhs, List.take_length] at hSymbols
      -- The stack is deep enough for the whole right-hand side.
      obtain rfl : below = q₀ :: rest₀ := by
        rw [hBelow, hChildren, RecoveryContext.popStates, ← hDrop, hSpells.length_eq, hSymbols]
        congr 1
        simp
      rw [hLhs] at hGoto
      refine ⟨p.lhs :: symbols₀, word, .edge hSpells₀ (h.edge?_of_goto hGoto), rfl, ?_⟩
      rw [hSymbols, List.reverse_append, List.reverse_reverse] at hDerives
      refine Relation.ReflTransGen.head ?_ hDerives
      have hRule := h.lowers.produces_iff.mpr ⟨p, Array.mem_of_getElem? hp, rfl, rfl⟩
      simpa using Grammar.Rewrites.rule symbols₀.reverse [] hRule

theorem derives_of_accepts (h : g.Built l states t) (hCount : t.productions.size < 65535) {word : List Symbol}
    (hAccepts : t.Accepts word) : g.Derives [t.start] word := by
  obtain ⟨kernels, hAutomaton⟩ := itemStates_eq_ok h.itemStates
  obtain ⟨stack, hMoves, hAction⟩ := hAccepts
  have hReads : Reads g states (word ++ [.eof]) (stack, [.eof]) := by
    have hStart : Reads g states (word ++ [.eof]) ([0], word ++ [.eof]) := ⟨[], [], .start, rfl, .refl⟩
    generalize (stack, [Symbol.eof]) = config at hMoves ⊢
    induction hMoves with
    | refl => exact hStart
    | tail _ hMove ih => exact reads_step h hAutomaton hCount ih hMove
  obtain ⟨symbols, word', hSpells, hWord, hDerives⟩ := hReads
  obtain rfl := List.append_cancel_right hWord
  obtain ⟨_, hEntry⟩ := h.entryAt_of_action hAutomaton hAction
  obtain ⟨_, ⟨production, dot⟩, hItem, hComplete, rfl⟩ := entryAt_accept hEntry
  cases stack with
  | nil => cases hSpells
  | cons q stack =>
    have hDot := hAutomaton.dot_eq_length hItem hComplete
    obtain ⟨q₀, rest₀, symbols₀, _, hSymbols, hSpells₀, hBegin⟩ := hAutomaton.retrace hSpells hItem
    rw [show dot = _ from hDot, List.take_length, rhs_startRule] at hSymbols
    obtain rfl := hAutomaton.eq_zero_of_start_mem hBegin
    obtain rfl : symbols₀ = [] := by
      cases hSpells₀ with
      | start => rfl
      | edge _ hEdge => exact absurd rfl (hAutomaton.edge?_ne_zero hEdge)
    rw [h.start_eq]
    simpa [hSymbols] using hDerives

end Soundness

/-! ## What is derived is accepted -/

section Completeness

open LoweredGrammar

variable {g : Grammar} {l : LoweredGrammar} {states : Array ItemState} {t : Table}
  {kernels : Array (List LrItem)}

/-- The terminal may come after a whole right-hand side of the production. -/
def MayFollow (l : LoweredGrammar) (production : Nat) (s : Symbol) : Prop :=
  l.isTerminal s = true ∧
    ((production = l.startRule ∧ s = .eof) ∨
      ∃ p, l.productions[production]? = some p ∧ (followOf l.follow p.lhs).has s.index = true)

theorem offer?_of_mayFollow {production : Nat} {p : LoweredProduction} {s : Symbol} {dot : Nat}
    (hp : l.productions[production]? = some p) (h : MayFollow l production s) :
    l.offer? l.follow s ⟨production, dot⟩ = some (.reduce production.toUInt16) := by
  have hBound := (Array.getElem?_eq_some_iff.mp hp).1
  have hNot : production ≠ l.startRule := by rw [LoweredGrammar.startRule]; omega
  obtain ⟨_, ⟨hStart, _⟩ | ⟨p', hp', hHas⟩⟩ := h
  · exact absurd hStart hNot
  · obtain rfl := Option.some.inj (hp.symm.trans hp')
    simp [offer?, hNot, hp, hHas]

/-- What comes after a symbol of a right-hand side may come after each of its productions. -/
theorem mayFollow_inner (hScoped : l.Scoped) {production dot inner : Nat} {p : LoweredProduction}
    {rest word : List Symbol} {s next : Symbol} (hAfter : MayFollow l production s)
    (hRhs : (l.rhs production).drop dot = p.lhs :: rest) (hInner : l.productions[inner]? = some p)
    (hYields : l.Yields rest word) (hWord : ∀ x ∈ word, l.isTerminal x = true)
    (hNext : (word ++ [s]).head? = some next) : MayFollow l inner next := by
  have hBegins := begins_closed hScoped.inRange
  have hFollow := follow_closed hScoped.inRange
  obtain ⟨hs, hAfter⟩ := hAfter
  have hTerm : l.isTerminal next = true := by
    cases word with
    | nil => rwa [← Option.some.inj hNext]
    | cons x _ => exact Option.some.inj hNext ▸ hWord x List.mem_cons_self
  refine ⟨hTerm, .inr ⟨p, hInner, ?_⟩⟩
  have hSplit : l.rhs production = (l.rhs production).take dot ++ p.lhs :: rest := by
    rw [← hRhs, List.take_append_drop]
  rcases hAfter with ⟨rfl, rfl⟩ | ⟨outer, hOuter, hHas⟩
  · -- The start rule is the start symbol alone.
    rw [rhs_startRule] at hSplit
    obtain ⟨hStart, rfl⟩ : p.lhs = l.start ∧ rest = [] := by
      cases hTake : (l.rhs l.startRule).take dot with
      | nil =>
        rw [rhs_startRule] at hTake
        rw [hTake] at hSplit
        simpa [eq_comm] using hSplit
      | cons x xs =>
        rw [rhs_startRule] at hTake
        rw [hTake] at hSplit
        have := congrArg List.length hSplit
        simp at this
    cases hYields
    obtain rfl := Option.some.inj hNext
    rw [hStart]
    exact hFollow.start
  · rw [rhs_of_production hOuter] at hSplit
    have hMem := Array.mem_of_getElem? hOuter
    refine hFollow.rhs outer hMem _ p.lhs rest hSplit (hScoped.lhs p (Array.mem_of_getElem? hInner)).1 _ ?_
    cases word with
    | nil =>
      obtain rfl := Option.some.inj hNext
      exact .inr ⟨hYields.nullable hBegins rfl, hHas⟩
    | cons x _ =>
      obtain rfl := Option.some.inj hNext
      exact .inl (hYields.first hBegins rfl)

/-- From a state with an item the table reads what the rest of the right-hand side derives, and comes to
stand above that state with the item complete. -/
theorem moves_of_yields (h : g.Built l states t) (hAutomaton : l.ItemAutomaton states kernels)
    (hCount : t.productions.size < 65535) (hFree : l.ConflictFree states) {symbols word : List Symbol}
    (hYields : l.Yields symbols word) {production dot : Nat} {q : StateId} (below : List StateId)
    (hItem : ⟨production, dot⟩ ∈ itemsAt states q) (hRhs : (l.rhs production).drop dot = symbols) {s : Symbol}
    (hAfter : MayFollow l production s) (rest : List Symbol) :
    ∃ (top : StateId) (above : List StateId),
      Relation.ReflTransGen t.Moves (q :: below, word ++ s :: rest) (top :: above, s :: rest) ∧
        (top :: above).drop symbols.length = q :: below ∧
        ⟨production, (l.rhs production).length⟩ ∈ itemsAt states top := by
  induction hYields generalizing production dot q below s rest with
  | nil =>
    have hDot := Nat.le_antisymm (hAutomaton.dot_le_length hItem) (List.drop_eq_nil_iff.mp hRhs)
    exact ⟨q, below, .refl, rfl, hDot ▸ hItem⟩
  | @terminal x symbols word hx _ ih =>
    have hNext : l.next? ⟨production, dot⟩ = some x := by
      rw [next?, ← List.head?_drop, hRhs]
      rfl
    obtain ⟨q', hEdge⟩ := hAutomaton.edge?_of_next hItem hNext
    have hAction : t.action q x = some (.shift q') := by
      rw [h.action_eq hAutomaton hx, entryAt_of_edge? hFree hx hEdge]
    have hTail : (l.rhs production).drop (dot + 1) = symbols := by
      rw [← List.tail_drop, hRhs]
      rfl
    obtain ⟨top, above, hMoves, hDrop, hComplete⟩ :=
      ih (q :: below) (hAutomaton.advance_mem hEdge hItem hNext) hTail hAfter rest
    refine ⟨top, above, .head (.shift hAction) hMoves, ?_, hComplete⟩
    rw [List.length_cons, ← List.drop_drop, hDrop]
    rfl
  | @rule p symbols inner word hp hInner hRest ihInner ihRest =>
    have hNext : l.next? ⟨production, dot⟩ = some p.lhs := by
      rw [next?, ← List.head?_drop, hRhs]
      rfl
    have hTail : (l.rhs production).drop (dot + 1) = symbols := by
      rw [← List.tail_drop, hRhs]
      rfl
    obtain ⟨inside, hInside⟩ := Array.mem_iff_getElem?.mp hp
    have hLhs := h.inScope.lhs p hp
    -- What comes right after the inner word, and the rest after that.
    obtain ⟨next, after, hWord⟩ : ∃ next after, word ++ s :: rest = next :: after := by
      cases word with
      | nil => exact ⟨s, rest, rfl⟩
      | cons x word => exact ⟨x, word ++ s :: rest, rfl⟩
    have hHead : (word ++ [s]).head? = some next := by
      cases word <;> simp_all
    have hNextAfter := mayFollow_inner h.inScope hAfter hRhs hInside hRest hRest.terminals hHead
    have hBegin : ⟨inside, 0⟩ ∈ itemsAt states q :=
      hAutomaton.expand hItem hNext hLhs.1 (mem_initialItems.mpr ⟨p, hInside, rfl, rfl⟩)
    obtain ⟨top, above, hMoves, hDrop, hComplete⟩ :=
      ihInner below hBegin (by rw [List.drop_zero, rhs_of_production hInside]) hNextAfter after
    -- The inner production is complete, and reduced before what comes next.
    have hEnd : l.next? ⟨inside, (l.rhs inside).length⟩ = none := List.getElem?_eq_none (Nat.le_refl _)
    have hAction : t.action top next = some (.reduce inside.toUInt16) := by
      rw [h.action_eq hAutomaton hNextAfter.1]
      exact entryAt_of_complete hFree hNextAfter.1 hComplete hEnd (offer?_of_mayFollow hInside hNextAfter)
    obtain ⟨hLhsEq, hChildren⟩ := h.production_eq hAutomaton hCount hComplete hEnd hInside
    obtain ⟨q', hEdge⟩ := hAutomaton.edge?_of_next hItem hNext
    have hPop : q :: below = RecoveryContext.popStates (top :: above)
        (t.production inside.toUInt16).childCount.toNat := by
      have hLength := congrArg List.length hDrop
      simp only [List.length_drop, List.length_cons] at hLength
      rw [hChildren, RecoveryContext.popStates, ← hDrop]
      congr 1
      simp only [List.length_cons]
      omega
    have hGoto : t.goto q (t.production inside.toUInt16).lhs = some q' := by
      rw [hLhsEq, h.goto_eq hLhs.1 hLhs.2, hEdge]
    obtain ⟨top', above', hMoves', hDrop', hComplete'⟩ :=
      ihRest (q :: below) (hAutomaton.advance_mem hEdge hItem hNext) hTail hAfter rest
    refine ⟨top', above', ?_, ?_, hComplete'⟩
    · rw [List.append_assoc, hWord]
      rw [hWord] at hMoves'
      exact hMoves.trans (.head (.reduce hAction hPop hGoto) hMoves')
    · rw [List.length_cons, ← List.drop_drop, hDrop']
      rfl

theorem accepts_of_derives (h : g.Built l states t) (hCount : t.productions.size < 65535)
    (hFree : l.ConflictFree states) {word : List Symbol} (hWord : ∀ s ∈ word, t.isTerminal s = true)
    (hDerives : g.Derives [t.start] word) : t.Accepts word := by
  obtain ⟨kernels, hAutomaton⟩ := itemStates_eq_ok h.itemStates
  have hYields : l.Yields [l.start] word :=
    yields_of_derives h.lowers (h.start_eq ▸ hDerives) fun s hs => h.isTerminal_eq s ▸ hWord s hs
  have hEnd : l.isTerminal .eof = true := isTerminal_iff.mpr h.inScope.tokens_pos
  obtain ⟨top, above, hMoves, _, hItem⟩ := moves_of_yields h hAutomaton hCount hFree hYields [] hAutomaton.start_mem
    (rhs_startRule l) (s := .eof) ⟨hEnd, .inl ⟨rfl, rfl⟩⟩ []
  refine ⟨top :: above, hMoves, ?_⟩
  change t.action top .eof = _
  rw [h.action_eq hAutomaton hEnd]
  refine entryAt_of_complete hFree hEnd hItem (List.getElem?_eq_none (Nat.le_refl _)) ?_
  rw [offer?, if_pos rfl, if_pos rfl]

end Completeness

/-! ## Trials -/

section Trials

open LoweredGrammar

variable {g : Grammar} {l : LoweredGrammar} {states : Array ItemState} {t : Table}
  {kernels : Array (List LrItem)}

theorem next?_ne_eof (hScoped : l.Scoped) {item : LrItem} : l.next? item ≠ some .eof := by
  intro hNext
  have hMem : Symbol.eof ∈ l.rhs item.production := List.mem_of_getElem? hNext
  rw [LoweredGrammar.rhs] at hMem
  split at hMem
  · have hEnd : l.isTerminal .eof = true := isTerminal_iff.mpr hScoped.tokens_pos
    rw [List.mem_singleton.mp hMem, hScoped.start.1] at hEnd
    cases hEnd
  · cases hp : l.productions[item.production]? with
    | none => simp [hp] at hMem
    | some p =>
      simp only [hp, Option.map_some, Option.getD_some] at hMem
      exact absurd (hScoped.rhs p (Array.mem_of_getElem? hp) _ hMem).1 (Nat.lt_irrefl 0)

theorem action_eof_ne_shift (h : g.Built l states t) (hAutomaton : l.ItemAutomaton states kernels) {q q' : StateId} :
    t.action q .eof ≠ some (.shift q') := by
  intro hAction
  have hEdge := entryAt_shift (h.entryAt_of_action hAutomaton hAction).2
  obtain ⟨item, _, hNext⟩ := mem_nextSymbols.mp (hAutomaton.kernel_of_edge? hEdge).2
  exact next?_ne_eof h.inScope hNext

/-- Moves never read the end of the input. -/
theorem suffix_of_moves (h : g.Built l states t) (hAutomaton : l.ItemAutomaton states kernels) {word : List Symbol}
    {config : List StateId × List Symbol} (hMoves : Relation.ReflTransGen t.Moves ([0], word ++ [.eof]) config) :
    ∃ rest, config.2 = rest ++ [.eof] ∧ rest <:+ word := by
  induction hMoves with
  | refl => exact ⟨word, rfl, List.suffix_refl word⟩
  | tail _ hMove ih =>
    obtain ⟨rest, hRest, hSuffix⟩ := ih
    cases hMove with
    | reduce => exact ⟨rest, hRest, hSuffix⟩
    | shift hAction =>
      cases rest with
      | nil =>
        obtain ⟨rfl, _⟩ := List.cons.inj hRest
        exact absurd hAction (action_eof_ne_shift h hAutomaton)
      | cons x rest => exact ⟨rest, (List.cons.inj hRest).2, (List.suffix_cons x rest).trans hSuffix⟩

theorem accepts_iff_tryShift (h : g.Built l states t) {word : List Symbol} (hEof : .eof ∉ word) :
    t.Accepts word ↔ ∃ steps, RecoveryContext.tryShift t steps [0] (word ++ [.eof]) = true := by
  obtain ⟨kernels, hAutomaton⟩ := itemStates_eq_ok h.itemStates
  rw [Table.exists_tryShift_iff]
  constructor
  · rintro ⟨stack, hMoves, hAction⟩
    exact ⟨stack, [.eof], hMoves, .inr ⟨.eof, [], rfl, hAction⟩⟩
  · rintro ⟨stack, symbols, hMoves, hEnd⟩
    obtain ⟨rest, rfl, hSuffix⟩ := suffix_of_moves h hAutomaton hMoves
    obtain hNil | ⟨s, rest', hCons, hAction⟩ := hEnd
    · simp at hNil
    · obtain ⟨rfl, _⟩ := entryAt_accept (h.entryAt_of_action hAutomaton hAction).2
      cases rest with
      | nil => exact ⟨stack, hMoves, hAction⟩
      | cons x rest =>
        obtain ⟨rfl, _⟩ := List.cons.inj hCons
        exact absurd (hSuffix.mem List.mem_cons_self) hEof

end Trials

namespace Grammar

theorem conflictFree_of_lower {g : Grammar} {l : LoweredGrammar} {states : Array LoweredGrammar.ItemState}
    (hLower : g.lower = .ok l) (hStates : l.itemStates = .ok states) (h : l.hasConflict states = false) :
    g.ConflictFree := by
  intro l' states' hLower' hStates'
  obtain rfl := Except.ok.inj (hLower.symm.trans hLower')
  obtain rfl := Except.ok.inj (hStates.symm.trans hStates')
  exact LoweredGrammar.conflictFree_of_hasConflict h

end Grammar

/-- The table of a grammar without conflicts accepts exactly what the start symbol derives. Words that do
not contain the end of the input are those on which trials of enough steps succeed. -/
theorem accepts_iff_derives {g : Grammar} {t : Table} (hBuild : g.build = .ok t)
    (hCount : t.productions.size < 65535) (hFree : g.ConflictFree) {word : List Symbol}
    (hWord : ∀ s ∈ word, t.isTerminal s = true) :
    (t.Accepts word ↔ g.Derives [t.start] word) ∧
      (.eof ∉ word → ((∃ steps, RecoveryContext.tryShift t steps [0] (word ++ [.eof]) = true) ↔
        g.Derives [t.start] word)) := by
  obtain ⟨l, states, h⟩ := Grammar.build_eq_ok hBuild
  have hIff : t.Accepts word ↔ g.Derives [t.start] word :=
    ⟨derives_of_accepts h hCount, accepts_of_derives h hCount (hFree l states h.lower h.itemStates) hWord⟩
  refine ⟨hIff, fun hEof => ?_⟩
  rw [← hIff, accepts_iff_tryShift h hEof]

namespace Grammar

/-- Any number of `a`. -/
def repeated : Grammar where
  name := "repeated"
  rules := [⟨"s", [.symbol "s", .literal "a"], 0, .none⟩, ⟨"s", [], 0, .none⟩]

theorem repeated_build : (repeated.build.toOption.map fun t =>
    (t.productions.size, t.start, t.isTerminal ⟨1⟩)) = some (2, ⟨2⟩, true) := by cbv

theorem repeated_conflictFree : repeated.ConflictFree := by
  have hNone : (repeated.lower.toOption.bind fun l =>
      l.itemStates.toOption.map fun states => l.hasConflict states) = some false := by cbv
  cases hLower : repeated.lower with
  | error e => simp [hLower, Except.toOption] at hNone
  | ok l =>
    cases hStates : l.itemStates with
    | error e => simp [hLower, hStates, Except.toOption] at hNone
    | ok states => exact conflictFree_of_lower hLower hStates (by simpa [hLower, hStates, Except.toOption] using hNone)

theorem repeated_derives : repeated.Derives [⟨2⟩] [⟨1⟩, ⟨1⟩] := by
  have hMore : repeated.Produces ⟨2⟩ [⟨2⟩, ⟨1⟩] := .inl ⟨_, List.mem_cons_self, by cbv, by cbv⟩
  have hNone : repeated.Produces ⟨2⟩ [] := .inl ⟨_, List.mem_cons_of_mem _ List.mem_cons_self, by cbv, by cbv⟩
  exact .head (.rule [] [] hMore) (.head (.rule [] [⟨1⟩] hMore) (.single (.rule [] [⟨1⟩, ⟨1⟩] hNone)))

end Grammar

/-- The table for any number of `a` accepts two of them, and a trial of enough steps finds it. -/
theorem repeated_accepts_two : ∃ t, Grammar.repeated.build = .ok t ∧ t.Accepts [⟨1⟩, ⟨1⟩] ∧
    ∃ steps, RecoveryContext.tryShift t steps [0] [⟨1⟩, ⟨1⟩, .eof] = true := by
  have hBuild := Grammar.repeated_build
  cases h : Grammar.repeated.build with
  | error e => simp [h, Except.toOption] at hBuild
  | ok t =>
    simp only [h, Except.toOption, Option.map_some, Option.some.injEq, Prod.mk.injEq] at hBuild
    obtain ⟨hCount, hStart, hTerm⟩ := hBuild
    have hIff := @accepts_iff_derives _ _ h (by omega) Grammar.repeated_conflictFree [⟨1⟩, ⟨1⟩]
      (by simpa using hTerm)
    rw [hStart] at hIff
    exact ⟨t, rfl, hIff.1.mpr Grammar.repeated_derives, (hIff.2 (by decide)).mpr Grammar.repeated_derives⟩

end Reparse
