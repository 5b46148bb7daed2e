import Reparse.Proofs.Grammar.Infix
/-!
# Precedence and associativity

The table of a grammar of infix operators accepts every atom, operator, atom, ..., atom, and builds the one
tree in which what stands below an operator binds tighter than it, or as tight and to that side. The trees
that wait on the stack for their right operands bind tighter and tighter towards its top; the next operator
closes those that it may stand above, and then waits itself.
-/
namespace Reparse

namespace ParseTree

/-- The operator that a tree joins its operands with. Its production comes after those of the whole text and of
the atom. -/
def operator? (ops : List (Operator Symbol)) : ParseTree → Option (Operator Symbol)
  | leaf _ => none
  | node id _ => if 2 ≤ id.toNat then ops[id.toNat - 2]? else none

/-- Atoms joined by operators, each of which has operands on its left and its right that may stand there. -/
inductive Grouped (ops : List (Operator Symbol)) (a : Symbol) : ParseTree → Prop
  | atom : Grouped ops a (node 1 [leaf a])
  | binary (i : Fin ops.length) {left right : ParseTree} : Grouped ops a left → Grouped ops a right →
    (∀ o, left.operator? ops = some o → Operator.Tighter .left (ops.get i) o) →
    (∀ o, right.operator? ops = some o → Operator.Tighter .right (ops.get i) o) →
    Grouped ops a (node (i.val + 2).toUInt16 [left, leaf (ops.get i).token, right])

end ParseTree

/-- An atom, and then each of some operators before another atom. -/
def expression (a : Symbol) (sentence : List (Operator Symbol)) : List Symbol :=
  a :: sentence.flatMap fun o => [o.token, a]

namespace LoweredGrammar

variable {S E a : Symbol} {ops : List (Operator Symbol)} {states : Array ItemState}

/-- A stack before an operand, in whose left neighbours every operator waits for its right one: the trees on
their left are grouped and may stand there, and each operator may stand in the right operand of the one
before. -/
inductive Pending (states : Array ItemState) (E a : Symbol) (ops : List (Operator Symbol)) :
    Slot ops → List StateId → List ParseTree → Prop
  | start : Pending states E a ops none [0] []
  | operator {c : Slot ops} {q q₁ q₂ : StateId} {rest : List StateId} {left : ParseTree} {trees : List ParseTree}
    (i : Fin ops.length) : Pending states E a ops c (q :: rest) trees → edge? states q E = some q₁ →
    edge? states q₁ (ops.get i).token = some q₂ → left.Grouped ops a →
    (∀ o, left.operator? ops = some o → Operator.Tighter .left (ops.get i) o) →
    (∀ j ∈ c, Operator.Tighter .right (ops.get j) (ops.get i)) →
    Pending states E a ops (some i) (q₂ :: q₁ :: q :: rest) (.leaf (ops.get i).token :: left :: trees)

section Driving

variable {G : Grammar} {g : LoweredGrammar} {t : Table} {kernels : Array (List LrItem)}
  (hBuilt : G.Built g states t) (h : g.Infix S E a ops) (hAutomaton : g.ItemAutomaton states kernels)
  {c : Slot ops} {stack : List StateId} {trees : List ParseTree}

include h hAutomaton in
theorem Pending.before (hPending : Pending states E a ops c stack trees) :
    HasItems states (stack.headD 0) (Before ops c) := by
  induction hPending with
  | start => exact h.items_zero hAutomaton
  | operator i _ hOperand hOperator _ _ _ ih =>
    exact h.items_operator hAutomaton (h.items_operand hAutomaton ih hOperand) hOperator

include h hAutomaton in
theorem Pending.after (hPending : Pending states E a ops c stack trees) {q₁ : StateId}
    (hOperand : edge? states (stack.headD 0) E = some q₁) : HasItems states q₁ (After ops c) :=
  h.items_operand hAutomaton (hPending.before h hAutomaton) hOperand

omit h in
theorem Pending.eq_cons (hPending : Pending states E a ops c stack trees) : ∃ q rest, stack = q :: rest := by
  cases hPending with
  | start => exact ⟨_, _, rfl⟩
  | operator => exact ⟨_, _, rfl⟩

include h

theorem eq_of_operator?_binary {i : Fin ops.length} {children : List ParseTree} {o : Operator Symbol}
    (ho : (ParseTree.node (i.val + 2).toUInt16 children).operator? ops = some o) : ops.get i = o := by
  have hSize := h.size_lt
  rw [h.size] at hSize
  have hId : (i.val + 2).toUInt16.toNat = i.val + 2 := Nat.mod_eq_of_lt (by omega)
  rw [ParseTree.operator?, hId, if_pos (by omega), Nat.add_sub_cancel] at ho
  exact (List.getElem?_eq_some_iff.mp ho).2

include hBuilt

/-- A reduction by a production, as the table has it, over the trees of its right-hand side. -/
theorem advances_reduce (above : List StateId) (children : List ParseTree) {below : List StateId} {k : Nat}
    {p p₀ : LoweredProduction} {q q' : StateId} {s : Symbol} {input : List Symbol}
    (hp : g.productions[k]? = some p) (hBare : p.bare = p₀)
    (hCount : p₀.rhs.length.toUInt16.toNat = above.length) (hTrees : above.length = children.length)
    (hEdge : edge? states q p₀.lhs = some q')
    (hAction : t.action ((above ++ q :: below).headD 0) s = some (.reduce k.toUInt16)) :
    t.Advances ⟨above ++ q :: below, children ++ trees, s :: input⟩
      ⟨q' :: q :: below, .node k.toUInt16 children.reverse :: trees, s :: input⟩ := by
  have hBound := (Array.getElem?_eq_some_iff.mp hp).1
  have hSize := h.size_lt
  have hId : k.toUInt16.toNat = k := Nat.mod_eq_of_lt (by omega)
  have hProduction : t.production k.toUInt16 = ⟨p.lhs, p.rhs.length.toUInt16, p.fields⟩ := by
    rw [Table.production, hId, hBuilt.table]
    simp [toTable, hp]
  obtain ⟨hNonterminal, hLhs⟩ := h.lhs p (Array.mem_of_getElem? hp)
  subst hBare
  refine .reduce above children hAction ?_ hTrees ?_
  · rw [hProduction]
    exact hCount
  · rw [hProduction]
    exact (hBuilt.goto_eq hNonterminal hLhs).trans hEdge

theorem advances_binary {q q₁ q₂ q₃ : StateId} {rest : List StateId} {left right : ParseTree} {i : Fin ops.length}
    {s : Symbol} {input : List Symbol} (hOperand : edge? states q E = some q₁)
    (hAction : t.action q₃ s = some (.reduce (i.val + 2).toUInt16)) :
    t.Advances ⟨q₃ :: q₂ :: q₁ :: q :: rest, right :: .leaf (ops.get i).token :: left :: trees, s :: input⟩
      ⟨q₁ :: q :: rest, .node (i.val + 2).toUInt16 [left, .leaf (ops.get i).token, right] :: trees, s :: input⟩ := by
  obtain ⟨p, hp, hBare⟩ := h.production_operator i
  exact advances_reduce hBuilt h [q₃, q₂, q₁] [right, .leaf (ops.get i).token, left] hp hBare rfl rfl hOperand hAction

include hAutomaton

theorem runs_atom (hPending : Pending states E a ops c stack trees) {s : Symbol} (hs : FollowsOperand ops s)
    (input : List Symbol) : ∃ q₁, edge? states (stack.headD 0) E = some q₁ ∧
      t.Runs ⟨stack, trees, a :: s :: input⟩ ⟨q₁ :: stack, .node 1 [.leaf a] :: trees, s :: input⟩ := by
  have hBefore := hPending.before h hAutomaton
  obtain ⟨q, rest, rfl⟩ := hPending.eq_cons
  obtain ⟨q₁, hEdge⟩ := hAutomaton.edge?_of_next ((hBefore _).mpr .opening) (h.next?_opening c)
  obtain ⟨q₂, hAtom, hEntry⟩ := h.entryAt_atom hAutomaton hBefore
  refine ⟨q₁, hEdge, ?_⟩
  have hShift : t.action q a = some (.shift q₂) := (hBuilt.action_eq hAutomaton h.atom).trans hEntry
  have hReduce : t.action q₂ s = some (.reduce 1) :=
    (hBuilt.action_eq hAutomaton (h.terminal_of_follows hs)).trans
      (h.entryAt_reduce_atom hAutomaton (h.items_atom hAutomaton hBefore hAtom) hs)
  obtain ⟨p, hp, hBare⟩ := h.production_one
  exact .head (.shift hShift)
    (.single (advances_reduce hBuilt h [q₂] [.leaf a] hp hBare rfl rfl hEdge hReduce))

theorem runs_shift (hPending : Pending states E a ops c stack trees) {q₁ : StateId}
    (hOperand : edge? states (stack.headD 0) E = some q₁) {tree : ParseTree} (hTree : tree.Grouped ops a)
    {j : Fin ops.length} (hLeft : ∀ o, tree.operator? ops = some o → Operator.Tighter .left (ops.get j) o)
    (hTighter : ∀ i ∈ c, Operator.Tighter .right (ops.get i) (ops.get j)) (input : List Symbol) :
    ∃ stack' trees', Pending states E a ops (some j) stack' trees' ∧
      t.Runs ⟨q₁ :: stack, tree :: trees, (ops.get j).token :: input⟩ ⟨stack', trees', input⟩ := by
  have hAfter := hPending.after h hAutomaton hOperand
  obtain ⟨q₂, hEdge, hEntry⟩ := h.entryAt_shift hAutomaton hAfter hTighter
  have hAction : t.action q₁ (ops.get j).token = some (.shift q₂) :=
    (hBuilt.action_eq hAutomaton (h.token_terminal j)).trans hEntry
  obtain ⟨q, rest, rfl⟩ := hPending.eq_cons
  exact ⟨_, _, .operator j hPending hOperand hEdge hTree hLeft hTighter, .single (.shift hAction)⟩

/-- After an operand, the next operator closes those that it may stand above, and then waits itself. -/
theorem runs_operator (hPending : Pending states E a ops c stack trees) {q₁ : StateId}
    (hOperand : edge? states (stack.headD 0) E = some q₁) {tree : ParseTree} (hTree : tree.Grouped ops a)
    (hRight : ∀ i ∈ c, ∀ o, tree.operator? ops = some o → Operator.Tighter .right (ops.get i) o)
    {j : Fin ops.length} (hLeft : ∀ o, tree.operator? ops = some o → Operator.Tighter .left (ops.get j) o)
    (input : List Symbol) :
    ∃ stack' trees', Pending states E a ops (some j) stack' trees' ∧
      t.Runs ⟨q₁ :: stack, tree :: trees, (ops.get j).token :: input⟩ ⟨stack', trees', input⟩ := by
  -- Along the operators that wait, the last one first: the tree grows by each one that the new one closes.
  induction hPending generalizing q₁ tree with
  | start => exact runs_shift hBuilt h hAutomaton .start hOperand hTree hLeft nofun input
  | @operator c q q' q₂ rest left trees i hPending hBelow hToken hGrouped hJoins hInside ih =>
    have hPending' := Pending.operator i hPending hBelow hToken hGrouped hJoins hInside
    rcases h.sided.tighter_or (List.get_mem ops i) (List.get_mem ops j) with hClose | hWait
    · have hAfter := hPending'.after h hAutomaton hOperand
      have hAction : t.action q₁ (ops.get j).token = some (.reduce (i.val + 2).toUInt16) :=
        (hBuilt.action_eq hAutomaton (h.token_terminal j)).trans (h.entryAt_reduce_operator hAutomaton hAfter hClose)
      have hJoined : ((ParseTree.node (i.val + 2).toUInt16 [left, .leaf (ops.get i).token, tree])).Grouped ops a :=
        .binary i hGrouped hTree hJoins (hRight i rfl)
      obtain ⟨stack', trees', hNext, hRuns⟩ := ih hBelow hJoined
        (fun k hk o ho => eq_of_operator?_binary h ho ▸ hInside k hk)
        (fun o ho => eq_of_operator?_binary h ho ▸ hClose)
      exact ⟨stack', trees', hNext, .head (advances_binary hBuilt h hBelow hAction) hRuns⟩
    · refine runs_shift hBuilt h hAutomaton hPending' hOperand hTree hLeft (fun k hk => ?_) input
      rwa [← Option.some.inj hk]

theorem runs_eof (hPending : Pending states E a ops c stack trees) {q₁ : StateId}
    (hOperand : edge? states (stack.headD 0) E = some q₁) {tree : ParseTree} (hTree : tree.Grouped ops a)
    (hRight : ∀ i ∈ c, ∀ o, tree.operator? ops = some o → Operator.Tighter .right (ops.get i) o) :
    ∃ whole q', whole.Grouped ops a ∧ edge? states 0 E = some q' ∧
      t.Runs ⟨q₁ :: stack, tree :: trees, [.eof]⟩ ⟨[q', 0], [whole], [.eof]⟩ := by
  induction hPending generalizing q₁ tree with
  | start => exact ⟨tree, q₁, hTree, hOperand, .refl⟩
  | @operator c q q' q₂ rest left trees i hPending hBelow hToken hGrouped hJoins hInside ih =>
    have hPending' := Pending.operator i hPending hBelow hToken hGrouped hJoins hInside
    have hAfter := hPending'.after h hAutomaton hOperand
    have hAction : t.action q₁ .eof = some (.reduce (i.val + 2).toUInt16) :=
      (hBuilt.action_eq hAutomaton h.eof_terminal).trans (h.entryAt_eof hAutomaton hAfter)
    obtain ⟨whole, q', hWhole, hEdge, hRuns⟩ := ih hBelow (.binary i hGrouped hTree hJoins (hRight i rfl))
      (fun k hk o ho => eq_of_operator?_binary h ho ▸ hInside k hk)
    exact ⟨whole, q', hWhole, hEdge, .head (advances_binary hBuilt h hBelow hAction) hRuns⟩

theorem runs_expression {sentence : List (Operator Symbol)} (hSentence : ∀ o ∈ sentence, o ∈ ops)
    (hPending : Pending states E a ops c stack trees) :
    ∃ whole q', whole.Grouped ops a ∧ edge? states 0 E = some q' ∧
      t.Runs ⟨stack, trees, expression a sentence ++ [.eof]⟩ ⟨[q', 0], [whole], [.eof]⟩ := by
  have hAtom (o : Operator Symbol) : (ParseTree.node 1 [.leaf a]).operator? ops ≠ some o := by
    rw [ParseTree.operator?, if_neg (by decide)]
    exact (Option.some_ne_none o).symm
  induction sentence generalizing c stack trees with
  | nil =>
    obtain ⟨q₁, hOperand, hRuns⟩ := runs_atom hBuilt h hAutomaton hPending (.inl rfl) []
    obtain ⟨whole, q', hWhole, hEdge, hRest⟩ := runs_eof hBuilt h hAutomaton hPending hOperand .atom
      (fun _ _ o ho => absurd ho (hAtom o))
    exact ⟨whole, q', hWhole, hEdge, hRuns.trans hRest⟩
  | cons o sentence ih =>
    obtain ⟨j, rfl⟩ := List.mem_iff_get.mp (hSentence o List.mem_cons_self)
    obtain ⟨q₁, hOperand, hRuns⟩ := runs_atom hBuilt h hAutomaton hPending (.inr ⟨j, rfl⟩)
      (expression a sentence ++ [.eof])
    obtain ⟨stack', trees', hNext, hMiddle⟩ := runs_operator hBuilt h hAutomaton hPending hOperand .atom
      (fun _ _ o ho => absurd ho (hAtom o)) (j := j) (fun o ho => absurd ho (hAtom o)) (expression a sentence ++ [.eof])
    obtain ⟨whole, q', hWhole, hEdge, hRest⟩ := ih (fun o ho => hSentence o (List.mem_cons_of_mem _ ho)) hNext
    exact ⟨whole, q', hWhole, hEdge, hRuns.trans (hMiddle.trans hRest)⟩

/-- The table accepts an expression, with one grouped tree under the production of the whole text. -/
theorem parses_expression {sentence : List (Operator Symbol)} (hSentence : ∀ o ∈ sentence, o ∈ ops) :
    ∃ tree, tree.Grouped ops a ∧ t.Parses (expression a sentence) (.node 0 [tree]) := by
  obtain ⟨tree, q', hTree, hOperand, hRuns⟩ := runs_expression hBuilt h hAutomaton hSentence .start
  have hBefore := h.items_zero hAutomaton
  have hAfter := h.items_operand hAutomaton hBefore hOperand
  -- The whole text is reduced, and accepted above the first state.
  have hReduce : t.action q' .eof = some (.reduce 0) :=
    (hBuilt.action_eq hAutomaton h.eof_terminal).trans (h.entryAt_eof hAutomaton hAfter)
  obtain ⟨q, hStart⟩ := hAutomaton.edge?_of_next ((hBefore _).mpr (.start rfl)) h.next?_start
  have hAccept : t.action q .eof = some .accept :=
    (hBuilt.action_eq hAutomaton h.eof_terminal).trans (h.entryAt_accept (h.items_start hAutomaton hStart))
  obtain ⟨p, hp, hBare⟩ := h.production_zero
  exact ⟨tree, hTree, [q, 0],
    hRuns.tail (advances_reduce hBuilt h [q'] [tree] hp hBare rfl rfl hStart hReduce), hAccept⟩

end Driving
end LoweredGrammar

/-! ## Grammars of operators -/

namespace Operator

/-- The rule for an operator between two operands. -/
def rule (e : String) (o : Operator Item) : Rule :=
  ⟨e, [.symbol e, o.token, .symbol e], o.precedence, o.assoc⟩

/-- The operator with the symbol of its token. -/
def lower (v : Vocabulary) (o : Operator Item) : Except BuildError (Operator Symbol) := do
  pure ⟨← v.itemSymbol o.token, o.precedence, o.assoc⟩

theorem lower_eq_ok {v : Vocabulary} {o : Operator Item} {x : Operator Symbol} (h : o.lower v = .ok x) :
    v.itemSymbol o.token = .ok x.token ∧ x.precedence = o.precedence ∧ x.assoc = o.assoc := by
  obtain ⟨s, hs, h⟩ := Grammar.bind_eq_ok h
  obtain rfl := Except.ok.inj h
  exact ⟨hs, rfl, rfl⟩

end Operator

namespace Grammar

variable {g : Grammar} {l : LoweredGrammar} {t : Table}

/-- The rules `s -> e`, `e -> atom` and `e -> e op e` for each of some operators with tokens of their own. -/
structure Expressions (g : Grammar) (s e : String) (atom : Item) (ops : List (Operator Item)) : Prop where
  rules : g.rules = ⟨s, [.symbol e], 0, .none⟩ :: ⟨e, [atom], 0, .none⟩ :: ops.map (Operator.rule e)
  repeats : g.repeats = []
  start : g.start = none ∨ g.start = some s
  distinct : s ≠ e
  atom : atom.IsToken g.vocabulary.tokens
  tokens : ∀ o ∈ ops, o.token.IsToken g.vocabulary.tokens
  nodup : (ops.map (·.token.core)).Nodup
  sided : Operator.Sided ops

theorem lower_operators {v : Vocabulary} {e : String} {E : Symbol} (hOperand : v.resolve e = .ok E)
    {ops : List (Operator Item)} {ps : List LoweredProduction}
    (h : List.Forall₂ (fun rule p => v.lowerRule rule = .ok p) (ops.map (Operator.rule e)) ps) :
    ∃ lowered, ops.mapM (Operator.lower v) = .ok lowered ∧ ps.map LoweredProduction.bare =
      lowered.map fun o => ⟨E, [E, o.token, E], [], o.precedence, o.assoc, false⟩ := by
  induction ops generalizing ps with
  | nil =>
    cases h
    exact ⟨[], rfl, rfl⟩
  | cons o rest ih =>
    cases h with
    | @cons _ p _ ps hFirst hRest =>
      obtain ⟨lowered, hLowered, hPs⟩ := ih hRest
      obtain ⟨lhs, rhs, hLhs, hRhs, hBare⟩ := lowerRule_bare hFirst
      obtain rfl := Except.ok.inj (hLhs.symm.trans hOperand)
      obtain ⟨left, _, hLeft, hAfterLeft, rfl⟩ := List.forall₂_cons_left_iff.mp (mapM_eq_ok hRhs)
      obtain ⟨token, _, hToken, hAfterToken, rfl⟩ := List.forall₂_cons_left_iff.mp hAfterLeft
      obtain ⟨right, _, hRight, hEnd, rfl⟩ := List.forall₂_cons_left_iff.mp hAfterToken
      obtain rfl := List.forall₂_nil_left_iff.mp hEnd
      obtain rfl := Except.ok.inj (hLeft.symm.trans hOperand)
      obtain rfl := Except.ok.inj (hRight.symm.trans hOperand)
      have hLower : o.lower v = .ok ⟨token, o.precedence, o.assoc⟩ := by
        rw [Operator.lower, hToken]
        rfl
      refine ⟨⟨token, o.precedence, o.assoc⟩ :: lowered, ?_, by simp [hBare, hPs, Operator.rule]⟩
      rw [List.mapM_cons, hLower, hLowered]
      rfl

theorem lower_nodup {v : Vocabulary} (hCount : v.symbolCount < 65536) {ops : List (Operator Item)}
    {lowered : List (Operator Symbol)} (h : List.Forall₂ (fun o x => Operator.lower v o = .ok x) ops lowered)
    (hNodup : (ops.map (·.token.core)).Nodup) : (lowered.map (·.token)).Nodup := by
  induction h with
  | nil => exact List.nodup_nil
  | @cons o x rest xs hFirst hRest ih =>
    obtain ⟨hNew, hNodup⟩ := List.nodup_cons.mp hNodup
    refine List.nodup_cons.mpr ⟨fun hMem => hNew ?_, ih hNodup⟩
    obtain ⟨y, hy, hEq⟩ := List.mem_map.mp hMem
    obtain ⟨o', ho', hLower⟩ := forall₂_mem_right hRest hy
    have hToken := (Operator.lower_eq_ok hLower).1
    rw [hEq] at hToken
    exact List.mem_map.mpr ⟨o', ho', Vocabulary.core_eq_of_itemSymbol hCount hToken (Operator.lower_eq_ok hFirst).1⟩

theorem lower_sided {v : Vocabulary} {ops : List (Operator Item)} {lowered : List (Operator Symbol)}
    (h : List.Forall₂ (fun o x => Operator.lower v o = .ok x) ops lowered) (hSided : Operator.Sided ops) :
    Operator.Sided lowered := by
  constructor
  · intro x hx
    obtain ⟨o, ho, hLower⟩ := forall₂_mem_right h hx
    rw [(Operator.lower_eq_ok hLower).2.2]
    exact hSided.assoc o ho
  · intro x hx y hy hEq
    obtain ⟨o, ho, hLower⟩ := forall₂_mem_right h hx
    obtain ⟨o', ho', hLower'⟩ := forall₂_mem_right h hy
    obtain ⟨_, hPrecedence, hAssoc⟩ := Operator.lower_eq_ok hLower
    obtain ⟨_, hPrecedence', hAssoc'⟩ := Operator.lower_eq_ok hLower'
    rw [hAssoc, hAssoc']
    exact hSided.agree o ho o' ho' (by rw [← hPrecedence, ← hPrecedence', hEq])

/-- The rules, one by one, become the productions of a grammar of operators. -/
theorem Expressions.lower_rules {s e : String} {atom : Item} {ops : List (Operator Item)}
    {rules : List LoweredProduction} (h : g.Expressions s e atom ops)
    (hRules : List.Forall₂ (fun rule p => g.vocabulary.lowerRule rule = .ok p) g.rules rules) :
    ∃ S E a lowered, g.vocabulary.resolve s = .ok S ∧ g.vocabulary.resolve e = .ok E ∧
      g.vocabulary.itemSymbol atom = .ok a ∧ ops.mapM (Operator.lower g.vocabulary) = .ok lowered ∧
      rules.map LoweredProduction.bare = LoweredGrammar.infixProductions S E a lowered := by
  rw [h.rules] at hRules
  obtain ⟨p₀, _, hFirst, hRest, rfl⟩ := List.forall₂_cons_left_iff.mp hRules
  obtain ⟨p₁, ps, hSecond, hOperators, rfl⟩ := List.forall₂_cons_left_iff.mp hRest
  obtain ⟨S, rhs₀, hS, hRhs₀, hBare₀⟩ := lowerRule_bare hFirst
  obtain ⟨E, rhs₁, hE, hRhs₁, hBare₁⟩ := lowerRule_bare hSecond
  obtain ⟨E', _, hE', hEnd₀, rfl⟩ := List.forall₂_cons_left_iff.mp (mapM_eq_ok hRhs₀)
  obtain rfl := List.forall₂_nil_left_iff.mp hEnd₀
  obtain rfl := Except.ok.inj (hE'.symm.trans hE)
  obtain ⟨a, _, hAtom, hEnd₁, rfl⟩ := List.forall₂_cons_left_iff.mp (mapM_eq_ok hRhs₁)
  obtain rfl := List.forall₂_nil_left_iff.mp hEnd₁
  obtain ⟨lowered, hLowered, hPs⟩ := lower_operators hE hOperators
  exact ⟨S, E', a, lowered, hS, hE, hAtom, hLowered,
    by simp [hBare₀, hBare₁, hPs, LoweredGrammar.infixProductions]⟩

/-- The start symbol is the left-hand side of the first rule, whether it is named or not. -/
theorem Expressions.start_eq {s e : String} {atom : Item} {ops : List (Operator Item)} {S start : Symbol}
    {productions : List LoweredProduction} (h : g.Expressions s e atom ops) (hS : g.vocabulary.resolve s = .ok S)
    (hHead : productions.head?.map (·.lhs) = some S) (hStart : g.StartsWith productions start) : start = S := by
  rcases hStart with ⟨name, hName, hResolve⟩ | ⟨_, hFirst⟩
  · rcases h.start with hNone | hSome
    · rw [hNone] at hName
      cases hName
    · obtain rfl := Option.some.inj (hSome.symm.trans hName)
      exact Except.ok.inj (hResolve.symm.trans hS)
  · exact Option.some.inj (hFirst.symm.trans hHead)

/-- A grammar of operators is lowered to one. -/
theorem Expressions.lowered {s e : String} {atom : Item} {ops : List (Operator Item)}
    {states : Array LoweredGrammar.ItemState} (h : g.Expressions s e atom ops) (hBuilt : g.Built l states t) :
    ∃ S E a lowered, g.vocabulary.itemSymbol atom = .ok a ∧
      ops.mapM (Operator.lower g.vocabulary) = .ok lowered ∧ l.Infix S E a lowered := by
  have hCount : g.vocabulary.symbolCount < 65536 := Nat.lt_trans hBuilt.symbolCount_lt (by omega)
  obtain ⟨rules, repeats, hRules, hRepeats, hProductions, hStart⟩ := hBuilt.lowers.productions
  rw [h.repeats] at hRepeats
  obtain rfl := List.forall₂_nil_left_iff.mp hRepeats
  rw [List.flatten_nil, List.append_nil] at hProductions hStart
  obtain ⟨S, E, a, lowered, hS, hE, hAtom, hLowered, hBare⟩ := h.lower_rules hRules
  have hForall := mapM_eq_ok hLowered
  have hHead : rules.head?.map (·.lhs) = some S := by
    have hFirst := congrArg (fun ps => ps.head?.map LoweredProduction.lhs) hBare
    simpa [LoweredGrammar.infixProductions, List.head?_map, LoweredProduction.bare] using hFirst
  have hTerminal {item : Item} {x : Symbol} (hToken : item.IsToken g.vocabulary.tokens)
      (hx : g.vocabulary.itemSymbol item = .ok x) : l.isTerminal x = true := by
    rw [LoweredGrammar.isTerminal_iff, hBuilt.tokenCount_eq]
    exact Vocabulary.index_lt_of_isToken hCount hToken hx
  refine ⟨S, E, a, lowered, hAtom, hLowered, ?_⟩
  exact {
    toScoped := hBuilt.inScope
    productions := by rw [hProductions]; exact hBare
    start_eq := h.start_eq hS hHead hStart
    distinct := by
      rintro rfl
      have hCore := Vocabulary.core_eq_of_itemSymbol (x := .symbol s) (y := .symbol e) hCount hS hE
      exact h.distinct (Item.symbol.inj hCore)
    atom := hTerminal h.atom hAtom
    tokens := by
      intro x hx
      obtain ⟨o, ho, hLower⟩ := forall₂_mem_right hForall hx
      exact hTerminal (h.tokens o ho) (Operator.lower_eq_ok hLower).1
    nodup := lower_nodup hCount hForall h.nodup
    sided := lower_sided hForall h.sided }

end Grammar

/-- The table of a grammar of operators accepts every expression over them, and builds one tree for it, in which
below every operator an operand with an operator of its own binds tighter, or as tight and to that side. -/
theorem expressions_grouped {g : Grammar} {s e : String} {atom : Item} {ops : List (Operator Item)} {t : Table}
    (h : g.Expressions s e atom ops) (hBuild : g.build = .ok t) :
    ∃ a lowered, g.vocabulary.itemSymbol atom = .ok a ∧ ops.mapM (Operator.lower g.vocabulary) = .ok lowered ∧
      ∀ sentence : List (Operator Symbol), (∀ o ∈ sentence, o ∈ lowered) →
        t.Accepts (expression a sentence) ∧
          ∃ tree, tree.Grouped lowered a ∧ tree.leaves = expression a sentence ∧
            ∀ whole, t.Parses (expression a sentence) whole ↔ whole = .node 0 [tree] := by
  obtain ⟨l, states, hBuilt⟩ := Grammar.build_eq_ok hBuild
  obtain ⟨kernels, hAutomaton⟩ := LoweredGrammar.itemStates_eq_ok hBuilt.itemStates
  obtain ⟨S, E, a, lowered, hAtom, hLowered, hInfix⟩ := h.lowered hBuilt
  refine ⟨a, lowered, hAtom, hLowered, fun sentence hSentence => ?_⟩
  obtain ⟨tree, hTree, hParses⟩ := LoweredGrammar.parses_expression hBuilt hInfix hAutomaton hSentence
  refine ⟨hParses.accepts, tree, hTree, ?_, fun whole => ⟨fun hWhole => hWhole.unique hParses, ?_⟩⟩
  · simpa [ParseTree.leaves, ParseTree.leavesOf] using hParses.leaves
  · rintro rfl
    exact hParses

namespace Grammar

/-- Sums to the left and powers, which bind tighter, to the right. -/
def powers : Grammar where
  name := "powers"
  rules := [⟨"s", [.symbol "e"], 0, .none⟩, ⟨"e", [.literal "n"], 0, .none⟩,
    ⟨"e", [.symbol "e", .literal "+", .symbol "e"], 1, .left⟩,
    ⟨"e", [.symbol "e", .literal "^", .symbol "e"], 2, .right⟩]

theorem powers_expressions : powers.Expressions "s" "e" (.literal "n")
    [⟨.literal "+", 1, .left⟩, ⟨.literal "^", 2, .right⟩] where
  rules := rfl
  repeats := rfl
  start := .inl rfl
  distinct := by decide
  atom := trivial
  tokens := by simp [Item.IsToken]
  nodup := by decide
  sided := ⟨by decide, by decide⟩

/-- The productions of `powers` and its states, one for each place an operand can stand at, before and after
it. -/
def powersLowered : LoweredGrammar :=
  powers.assemble [] [] none (LoweredGrammar.infixProductions ⟨4⟩ ⟨5⟩ ⟨1⟩ [⟨⟨2⟩, 1, .left⟩, ⟨⟨3⟩, 2, .right⟩]) ⟨4⟩

def powersStates : Array LoweredGrammar.ItemState :=
  #[⟨[⟨4, 0⟩, ⟨0, 0⟩, ⟨1, 0⟩, ⟨2, 0⟩, ⟨3, 0⟩], [(⟨1⟩, 1), (⟨4⟩, 2), (⟨5⟩, 3)]⟩,
    ⟨[⟨1, 1⟩], []⟩,
    ⟨[⟨4, 1⟩], []⟩,
    ⟨[⟨0, 1⟩, ⟨2, 1⟩, ⟨3, 1⟩], [(⟨2⟩, 4), (⟨3⟩, 5)]⟩,
    ⟨[⟨2, 2⟩, ⟨1, 0⟩, ⟨2, 0⟩, ⟨3, 0⟩], [(⟨1⟩, 1), (⟨5⟩, 6)]⟩,
    ⟨[⟨3, 2⟩, ⟨1, 0⟩, ⟨2, 0⟩, ⟨3, 0⟩], [(⟨1⟩, 1), (⟨5⟩, 7)]⟩,
    ⟨[⟨2, 1⟩, ⟨2, 3⟩, ⟨3, 1⟩], [(⟨2⟩, 4), (⟨3⟩, 5)]⟩,
    ⟨[⟨2, 1⟩, ⟨3, 1⟩, ⟨3, 3⟩], [(⟨2⟩, 4), (⟨3⟩, 5)]⟩]

theorem powers_build : powers.build = .ok (powersLowered.toTable powersStates) := by
  have hLower : powers.lower = .ok powersLowered := by cbv
  have hStates : powersLowered.itemStates = .ok powersStates := by cbv
  have hFault : (powersLowered.toTable powersStates).fault? = none := by decide +kernel
  exact build_of_lower hLower hStates hFault

end Grammar

/-- `n + n ^ n ^ n` is accepted, with one tree, in which its operators are grouped. -/
theorem powers_grouped : ∃ t tree, Grammar.powers.build = .ok t ∧ t.Accepts [⟨1⟩, ⟨2⟩, ⟨1⟩, ⟨3⟩, ⟨1⟩, ⟨3⟩, ⟨1⟩] ∧
    tree.Grouped [⟨⟨2⟩, 1, .left⟩, ⟨⟨3⟩, 2, .right⟩] ⟨1⟩ ∧
    ∀ whole, t.Parses [⟨1⟩, ⟨2⟩, ⟨1⟩, ⟨3⟩, ⟨1⟩, ⟨3⟩, ⟨1⟩] whole ↔ whole = .node 0 [tree] := by
  obtain ⟨a, lowered, hAtom, hLowered, hAll⟩ :=
    expressions_grouped Grammar.powers_expressions Grammar.powers_build
  obtain rfl : a = ⟨1⟩ := by
    have : Grammar.powers.vocabulary.itemSymbol (.literal "n") = .ok ⟨1⟩ := by cbv
    exact Except.ok.inj (hAtom.symm.trans this)
  obtain rfl : lowered = [⟨⟨2⟩, 1, .left⟩, ⟨⟨3⟩, 2, .right⟩] := by
    have : [⟨.literal "+", 1, .left⟩, ⟨.literal "^", 2, .right⟩].mapM (Operator.lower Grammar.powers.vocabulary)
        = .ok [⟨⟨2⟩, 1, .left⟩, ⟨⟨3⟩, 2, .right⟩] := by cbv
    exact Except.ok.inj (hLowered.symm.trans this)
  obtain ⟨hAccepts, tree, hTree, _, hWhole⟩ :=
    hAll [⟨⟨2⟩, 1, .left⟩, ⟨⟨3⟩, 2, .right⟩, ⟨⟨3⟩, 2, .right⟩] (by simp)
  exact ⟨_, tree, Grammar.powers_build, hAccepts, hTree, hWhole⟩

end Reparse
