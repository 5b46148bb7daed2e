import Reparse.Proofs.Parse.Coverage
import Reparse.Proofs.Parse.Linked
import Reparse.Proofs.Parse.Reuse
/-!
# Reductions of a session

Where extras and repetitions stand apart from the rules, recovery and reuse leave the stack linked by the table. Every
reduction then finds its children and a state to go to, and every node with a production is an instance of it.
-/
namespace Reparse

open Subtree

variable {σ : Type}

/-- The language of a grammar that stands for the rules `w`, with extras and repetitions apart from them. -/
structure Language.FromRules (l : Language) (g : Grammar) (w : LoweredGrammar) : Prop extends l.BuiltFrom g where
  lower : g.lower = .ok w
  /-- The id of no production is that of none. -/
  count : l.table.productions.size < 65535
  extras : g.ExtrasApart
  repetitions : g.RepeatsApart

/-- A reduction finds its children on the stack, and a state to go to from below them. -/
structure ParseStack.Reducible (t : Table) (s : ParseStack) (id : ProductionId) : Prop where
  enough : (t.production id).childCount.toNat ≤ s.structural.length
  goto : ∃ next, t.goto (s.popExtras.2.popStructural (t.production id).childCount.toNat).2.state (t.production id).lhs =
    some next

namespace Language.FromRules

variable {l : Language} {g : Grammar} {w : LoweredGrammar} (h : l.FromRules g w)
include h

theorem automaton : ∃ states kernels, g.Built w states l.table ∧ w.ItemAutomaton states kernels := by
  obtain ⟨w', states, hBuilt⟩ := h.built
  obtain rfl := Except.ok.inj (h.lower.symm.trans hBuilt.lower)
  obtain ⟨kernels, hAutomaton⟩ := LoweredGrammar.itemStates_eq_ok hBuilt.itemStates
  exact ⟨states, kernels, hBuilt, hAutomaton⟩

/-- What the table leads over is no extra. -/
theorem structural_of_leads {x : Subtree} (hx : x.All (Instance l.table w)) {q q' : StateId}
    (hLeads : l.table.Leads q x.symbol q') : x.isExtra = false :=
  h.toBuiltFrom.not_isExtra_of_leads h.extras hx.here.extra hLeads

/-- What is pushed where the table leads stays linked. -/
theorem linked_push {s : ParseStack} (hs : s.Linked l.table) {x : Subtree} (hx : x.All (Instance l.table w))
    {next : StateId} (hLeads : l.table.Leads s.state x.symbol next) : (s.push next x).Linked l.table :=
  hs.push (h.structural_of_leads hx hLeads) hLeads

theorem reducible {s : ParseStack} (hs : s.Linked l.table) {symbol : Symbol} {id : ProductionId}
    (hAction : l.table.action s.state symbol = some (.reduce id)) : s.Reducible l.table id := by
  obtain ⟨states, kernels, hBuilt, hAutomaton⟩ := h.automaton
  obtain ⟨top, hTop, -, hExtras⟩ := s.popExtras_eq
  rw [hTop] at hs hAction
  rw [hs.state_append hExtras] at hAction
  obtain ⟨hEnough, hGoto, -⟩ := hs.of_append.reduces hBuilt hAutomaton h.count hAction rfl
  refine ⟨?_, hGoto⟩
  rwa [hTop, ParseStack.structural_append, ParseStack.structural_extras hExtras, List.nil_append]

end Language.FromRules

/-- If the lookahead is reused, all its nodes are instances. -/
def Lookahead.Known (t : Table) (w : LoweredGrammar) (la : Lookahead) : Prop :=
  ∀ x, la = .reused x → x.All (Instance t w)

namespace Session

/-- The stack is linked by the table, and all nodes at hand are instances. -/
structure Productive (env : SessionEnv σ) (w : LoweredGrammar) (s : Session σ) : Prop where
  linked : s.stack.Linked env.language.table
  nodes : ∀ x ∈ s.stack.subtrees, x.All (Instance env.language.table w)
  skip : ∀ x, s.lastSkip = some x → x.All (Instance env.language.table w)
  reuse : ∀ c, s.reuse = some c → c.Ahead fun _ x => x.All (Instance env.language.table w)
  /-- A reused node that waits is a leaf. -/
  pending : ∀ la, s.pending = some la → la.isInterior = false ∧ la.Known env.language.table w
  deferred : ∀ la, s.deferred = some la → la.isInterior = false ∧ la.Known env.language.table w

/-- After the step the session is as before it, or the root is made of instances. -/
def ProductiveAfter (env : SessionEnv σ) (w : LoweredGrammar) : Progress σ → Prop
  | .running s => s.Productive env w
  | .finished root _ _ => root.All (Instance env.language.table w)

variable {env : SessionEnv σ} {g : Grammar} {w : LoweredGrammar} {s t : Session σ} {la : Lookahead}

theorem productive_start {marks : LexMarks} {input : σ} {old : Option Tree} {firstId : NodeId}
    (hOld : ∀ tree ∈ old, tree.root.All (Instance env.language.table w)) :
    (start marks input old firstId).Productive env w where
  linked := .nil
  nodes := by simp [start]
  skip x hx := by cases hx
  pending la hla := by cases hla
  deferred la hla := by cases hla
  reuse c hc := by
    obtain ⟨tree, hTree, rfl⟩ := Option.map_eq_some_iff.mp hc
    exact ReuseCursor.ahead_ofTree (hOld tree hTree)

/-! ## Stacks -/

theorem Productive.positioned (start : Nat) (x : Subtree) (h : x.All (Instance env.language.table w)) :
    ∀ entry ∈ x.positioned start, entry.2.All (Instance env.language.table w) :=
  fun _ hEntry => h.child _ (List.of_mem_zip hEntry).2

/-- A node is made of the production that the stack is reduced by, and the stack stays linked. -/
theorem Productive.reduce (h : s.Productive env w) (hRules : env.language.FromRules g w) {symbol : Symbol}
    {id : ProductionId} (hAction : env.language.table.action s.state symbol = some (.reduce id)) (extent : Nat) :
    (s.reduce env id extent).Productive env w := by
  obtain ⟨states, kernels, hBuilt, hAutomaton⟩ := hRules.automaton
  obtain ⟨top, children, below, hStack, hExtras, hSplit, hReduce⟩ := reduce_eq env s id extent
  have hLinked := h.linked
  have hNodes := h.nodes
  rw [state, hStack] at hAction
  rw [hStack] at hLinked hNodes
  rw [hLinked.state_append hExtras] at hAction
  obtain ⟨-, ⟨next, hGoto⟩, p, hp, hLhs, hSymbols⟩ := hLinked.of_append.reduces hBuilt hAutomaton hRules.count hAction hSplit
  simp only [ParseStack.subtrees_append, List.mem_append] at hNodes
  have hNode : ((ofChildren env.language s.nextId (env.language.table.production id).lhs (ParseStack.subtrees children) id
      (ParseStack.state below)).withLookahead
        (extent - (ParseStack.position below + totalOf size (ParseStack.subtrees children)))).All
      (Instance env.language.table w) := by
    refine (all_instance_ofChildren (fun c hc => hNodes c (.inl (.inr hc))) fun _ => ⟨p, hp, hLhs, ?_⟩).instance_withLookahead _
    exact hSymbols
  rw [hReduce]
  refine ⟨?_, ?_, h.skip, h.reuse, h.pending, h.deferred⟩
  · apply ParseStack.Linked.pushExtras
    · rw [hGoto, Option.getD_some]
      exact hRules.linked_push hLinked.of_append.of_append hNode (.inr hGoto)
    · intro x hx
      obtain ⟨entry, hEntry, rfl⟩ := ParseStack.mem_subtrees.mp hx
      exact hExtras entry hEntry
  · intro x hx
    simp only [ParseStack.subtrees_pushExtras, ParseStack.subtrees_push, List.mem_append, List.mem_singleton] at hx
    rcases hx with (hx | rfl) | hx
    · exact hNodes x (.inl (.inl hx))
    · exact hNode
    · exact hNodes x (.inr hx)

/-- An extra is pushed onto what is left of the stack. -/
theorem Productive.pushExtra {top below : ParseStack} (h : s.Productive env w) (hStack : s.stack = top ++ below)
    {x : Subtree} (hx : x.All (Instance env.language.table w)) (hExtra : x.isExtra = true) :
    (below.pushExtra x).Linked env.language.table ∧
      ∀ y ∈ ParseStack.subtrees (below.pushExtra x), y.All (Instance env.language.table w) := by
  have hLinked := h.linked
  have hNodes := h.nodes
  rw [hStack] at hLinked hNodes
  simp only [ParseStack.subtrees_append, List.mem_append] at hNodes
  refine ⟨hLinked.of_append.pushExtra hExtra, ?_⟩
  intro y hy
  rw [ParseStack.pushExtra, ParseStack.subtrees_push, List.mem_append, List.mem_singleton] at hy
  rcases hy with hy | rfl
  · exact hNodes y (.inl hy)
  · exact hx

theorem Productive.pushError {top below : ParseStack} (h : s.Productive env w) (hStack : s.stack = top ++ below)
    {children : List Subtree} (hChildren : ∀ c ∈ children, c.All (Instance env.language.table w)) (stats : ParseStats)
    (nextId : NodeId) :
    Productive env w { s with
      stack := below.pushExtra (.errorNode env.language s.nextId children below.state)
      lastSkip := some (.errorNode env.language s.nextId children below.state)
      nextId, stats } := by
  have hNode : (errorNode env.language s.nextId children below.state).All (Instance env.language.table w) :=
    all_instance_errorNode hChildren
  obtain ⟨hLinked, hNodes⟩ := h.pushExtra hStack hNode rfl
  refine ⟨hLinked, hNodes, ?_, h.reuse, h.pending, h.deferred⟩
  rintro x ⟨⟩
  exact hNode

theorem Productive.popStack (h : s.Productive env w) (depth : Nat) : (s.popStack env depth).Productive env w := by
  obtain ⟨top, below, hStack, -, hPop⟩ := popStack_eq env s depth
  have hNodes := h.nodes
  rw [hStack, ParseStack.subtrees_append] at hNodes
  rw [hPop]
  exact h.pushError hStack (fun c hc => hNodes c (List.mem_append_right _ hc)) _ _

/-- The error that a skipped leaf goes into takes the place of the last one. -/
theorem Productive.skipLeaf (h : s.Productive env w) {leaf : Subtree} (hLeaf : leaf.All (Instance env.language.table w)) :
    (s.skipLeaf env leaf).Productive env w := by
  obtain ⟨top, below, children, hStack, hChildren, hSkip⟩ := skipLeaf_eq env s leaf
  rw [hSkip]
  refine h.pushError hStack (fun c hc => ?_) _ _
  rcases hChildren c hc with rfl | hc | ⟨x, hx, hc⟩
  · exact hLeaf
  · exact h.nodes c hc
  · exact (h.skip x hx).child c hc

/-! ## Lookaheads -/

theorem Takes.productive (hRules : env.language.FromRules g w) (h : s.Productive env w) {next : Option Lookahead}
    {id : Option ProductionId} (hTakes : Takes env s next id t) :
    t.Productive env w ∧
      (∀ la, next = some la → la.Known env.language.table w ∧
        (la.isInterior = true → ∃ q, env.language.table.goto t.state la.symbol = some q)) ∧
      ∀ p, id = some p → s.stack.Reducible env.language.table p := by
  have hHeld {la : Lookahead} (hla : la.isInterior = false ∧ la.Known env.language.table w) :
      la.Known env.language.table w ∧ (la.isInterior = true → ∃ q, env.language.table.goto t.state la.symbol = some q) :=
    ⟨hla.2, fun hInterior => absurd (hla.1.symm.trans hInterior) Bool.false_ne_true⟩
  have hNone (la : Lookahead) (hla : none = some la) : la.isInterior = false ∧ la.Known env.language.table w := by cases hla
  cases hTakes with
  | pending hPending =>
    refine ⟨⟨h.linked, h.nodes, h.skip, h.reuse, hNone, h.deferred⟩, ?_, by simp⟩
    rintro la ⟨⟩
    exact hHeld (h.pending _ hPending)
  | deferred _ hDeferred =>
    refine ⟨⟨h.linked, h.nodes, h.skip, h.reuse, h.pending, hNone⟩, ?_, by simp⟩
    rintro la ⟨⟩
    exact hHeld (h.deferred _ hDeferred)
  | @reused c c' subtree _ _ _ hReuse hFinds =>
    obtain ⟨hAhead, hFound⟩ := hFinds.ahead Productive.positioned (h.reuse c hReuse)
    refine ⟨⟨h.linked, h.nodes, h.skip, ?_, h.pending, h.deferred⟩, ?_, by simp⟩
    · rintro c ⟨⟩
      exact hAhead
    · rintro la ⟨⟩
      constructor
      · rintro x ⟨⟩
        exact (hFound subtree rfl).1
      · intro hInterior
        cases hFinds with
        | subtree _ _ _ hTaken =>
          rcases hTaken with hLeaf | hGoto
          · simp [Lookahead.isInterior, hLeaf] at hInterior
          · exact Option.isSome_iff_exists.mp hGoto
  | @reduced c c' id extent _ _ hReuse hFinds =>
    obtain ⟨hAhead, -⟩ := hFinds.ahead Productive.positioned (h.reuse c hReuse)
    cases hFinds with
    | reduce _ _ hAction =>
      have hMoved : Productive env w { s with reuse := some c' } :=
        ⟨h.linked, h.nodes, h.skip, by rintro c ⟨⟩; exact hAhead, h.pending, h.deferred⟩
      refine ⟨hMoved.reduce hRules hAction _, by simp, ?_⟩
      rintro p ⟨⟩
      exact hRules.reducible h.linked hAction
  | lexed _ _ hMoves =>
    have hReuse := ReuseCursor.ahead_of_rel Productive.positioned h.reuse hMoves
    refine ⟨⟨h.linked, h.nodes, h.skip, hReuse, h.pending, h.deferred⟩, ?_, by simp⟩
    rintro la ⟨⟩
    exact hHeld ⟨rfl, by rintro x ⟨⟩⟩

theorem Takes.stack_eq {id : Option ProductionId} (hTakes : Takes env s (some la) id t) : t.stack = s.stack := by
  cases hTakes <;> rfl

theorem Stands.known {leaf : Subtree} {nextId : NodeId} (h : Stands env s la leaf nextId)
    (hla : la.Known env.language.table w) : leaf.All (Instance env.language.table w) ∧ leaf.symbol = la.symbol := by
  cases h with
  | token t => exact ⟨all_instance_token, rfl⟩
  | missing symbol => exact ⟨all_instance_missingLeaf, rfl⟩
  | shared => exact ⟨hla _ rfl, rfl⟩

theorem Leaves.known {leaf : Subtree} {nextId : NodeId} (h : Leaves env s la leaf nextId)
    (hla : la.Known env.language.table w) : leaf.All (Instance env.language.table w) ∧ leaf.symbol = la.symbol := by
  cases h with
  | stands h => exact h.known hla
  | restated leaf =>
    have hLeaf := hla leaf rfl
    exact ⟨hLeaf.update (hLeaf.here.congr rfl rfl rfl fun hExtra => hExtra), rfl⟩

/-! ## Steps -/

/-- What a parse that accepts puts around the start symbol are extras, so the root is still an instance. -/
theorem Productive.accept (h : s.Productive env w) (hRules : env.language.FromRules g w) {symbol : Symbol}
    (hAction : env.language.table.action s.state symbol = some .accept) :
    (s.accept env).1.All (Instance env.language.table w) := by
  have hRoots := roots_accept env s
  generalize s.accept env = result at hRoots ⊢
  cases hRoots with
  | extras => exact all_instance_bare h.nodes
  | alone hAlone => exact h.nodes _ (by rw [hAlone]; exact List.mem_singleton_self _)
  | @wrapped leading trailing root hParts hLeading hRoot =>
    obtain ⟨states, kernels, hBuilt, hAutomaton⟩ := hRules.automaton
    have hSymbols := h.linked.accepts hBuilt hAutomaton hAction
    have hNodes := h.nodes
    rw [hParts] at hNodes hSymbols
    rw [← List.singleton_append, symbolsOf_append, symbolsOf_append, symbolsOf_extras hLeading,
      symbolsOf_singleton hRoot, List.nil_append, List.singleton_append, List.cons.injEq] at hSymbols
    have hInstance := hNodes root (by simp)
    refine all_instance_ofChildren ?_ fun hNot => ?_
    · intro c hc
      simp only [List.mem_append] at hc
      rcases hc with (hc | hc) | hc
      · exact hNodes c (by simp [hc])
      · exact hInstance.child c hc
      · exact hNodes c (by simp [hc])
    · obtain ⟨p, hp, hLhs, hRhs⟩ := hInstance.here.made hNot
      refine ⟨p, hp, hLhs, ?_⟩
      rw [symbolsOf_append, symbolsOf_append, symbolsOf_extras hLeading, hSymbols.2, List.nil_append, List.append_nil]
      exact hRhs

theorem Productive.cancelled (h : s.Productive env w) : (s.cancelledRoot env).1.All (Instance env.language.table w) := by
  apply all_instance_bare
  intro c hc
  rcases List.mem_append.mp hc with hc | hc
  · exact h.nodes c hc
  · rw [List.mem_singleton.mp hc]
    exact all_instance_errorLeaf

theorem Acts.productive (hRules : env.language.FromRules g w) (h : s.Productive env w) (hKnown : la.Known env.language.table w)
    (hGoto : la.isInterior = true → ∃ q, env.language.table.goto s.state la.symbol = some q) {id : Option ProductionId}
    {p : Progress σ} (hActs : Acts env (fun _ => True) s la id p) :
    ProductiveAfter env w p ∧ ∀ q, id = some q → s.stack.Reducible env.language.table q := by
  have hPushed {leaf : Subtree} {next : StateId} (hLeaf : leaf.All (Instance env.language.table w))
      (hLeads : env.language.table.Leads s.state leaf.symbol next) (nextId : NodeId) :
      Productive env w { s with stack := s.stack.push next leaf, nextId } := by
    refine ⟨hRules.linked_push h.linked hLeaf hLeads, ?_, h.skip, h.reuse, h.pending, h.deferred⟩
    intro x hx
    rw [ParseStack.subtrees_push, List.mem_append, List.mem_singleton] at hx
    rcases hx with hx | rfl
    · exact h.nodes x hx
    · exact hLeaf
  have hWaits {q : Lookahead} (hq : q.isInterior = false) (hSame : q = la) (a : Lookahead) (ha : some q = some a) :
      a.isInterior = false ∧ a.Known env.language.table w := by
    obtain rfl := Option.some.inj ha
    exact ⟨hq, hSame ▸ hKnown⟩
  cases hActs with
  | @interior subtree hInterior =>
    obtain ⟨next, hNext⟩ := hGoto (by simp [Lookahead.isInterior, hInterior])
    refine ⟨?_, by simp⟩
    rw [show env.language.table.goto s.state subtree.symbol = some next from hNext, Option.getD_some]
    exact hPushed (hKnown subtree rfl) (.inr hNext) s.nextId
  | shift _ hAction hLeaves =>
    obtain ⟨hLeaf, hSymbol⟩ := hLeaves.known hKnown
    obtain ⟨-, hShift⟩ := actionOn_eq_some hAction
    exact ⟨hPushed hLeaf (.inl (by rw [hSymbol]; exact hShift)) _, by simp⟩
  | reduce hInterior hAction =>
    obtain ⟨-, hReduce⟩ := actionOn_eq_some hAction
    have hReduced := h.reduce hRules hReduce (la.extent s.position)
    constructor
    · exact ⟨hReduced.linked, hReduced.nodes, hReduced.skip, hReduced.reuse, hWaits hInterior rfl, hReduced.deferred⟩
    · rintro q ⟨⟩
      exact hRules.reducible h.linked hReduce
  | accept _ hAction => exact ⟨h.accept hRules (actionOn_eq_some hAction).2, by simp⟩
  | extra _ _ hStands hExtra =>
    obtain ⟨hLinked, hNodes⟩ := h.pushExtra (List.nil_append s.stack).symm (hStands.known hKnown).1 hExtra
    exact ⟨⟨hLinked, hNodes, h.skip, h.reuse, h.pending, h.deferred⟩, by simp⟩
  | dropped => exact ⟨h, by simp⟩
  | insert hInterior _ hAsks =>
    cases hAsks
    refine ⟨⟨h.linked, h.nodes, h.skip, h.reuse, ?_, hWaits hInterior rfl⟩, by simp⟩
    rintro a ⟨⟩
    exact ⟨rfl, by rintro x ⟨⟩⟩
  | @pop _ _ depth hInterior _ hAsks =>
    cases hAsks with
    | @mk lex stats =>
      have hAsked : Productive env w { s with lex, stats, recoveries := some (s.position, s.attempts) } :=
        ⟨h.linked, h.nodes, h.skip, h.reuse, h.pending, h.deferred⟩
      have hPopped := hAsked.popStack depth
      exact ⟨⟨hPopped.linked, hPopped.nodes, hPopped.skip, hPopped.reuse, hWaits hInterior rfl, hPopped.deferred⟩, by simp⟩
  | skipError hAsks =>
    cases hAsks
    obtain ⟨hLinked, hNodes⟩ := h.pushExtra (List.nil_append s.stack).symm all_instance_errorLeaf rfl
    refine ⟨⟨hLinked, hNodes, ?_, h.reuse, h.pending, h.deferred⟩, by simp⟩
    rintro x ⟨⟩
  | @skip _ leaf nextId _ _ _ hAsks _ hStands =>
    cases hAsks
    refine ⟨Productive.skipLeaf ?_ (hStands.known hKnown).1, by simp⟩
    exact ⟨h.linked, h.nodes, h.skip, h.reuse, h.pending, h.deferred⟩
  | wrap hAsks =>
    cases hAsks
    have hNode : (errorNode env.language s.nextId s.stack.subtrees 0).All (Instance env.language.table w) :=
      all_instance_errorNode h.nodes
    refine ⟨⟨.extra .nil rfl rfl, ?_, ?_, h.reuse, h.pending, h.deferred⟩, by simp⟩
    · intro x hx
      rw [ParseStack.subtrees_push, ParseStack.subtrees_nil, List.nil_append, List.mem_singleton] at hx
      rwa [hx]
    · rintro x ⟨⟩
  | giveUp hAsks =>
    cases hAsks
    have hNode : (errorNode env.language s.nextId s.stack.subtrees 0).All (Instance env.language.table w) :=
      all_instance_errorNode h.nodes
    refine ⟨hNode.update (hNode.here.congr rfl rfl rfl ?_), by simp⟩
    rintro ⟨⟩

theorem Steps.productive (hRules : env.language.FromRules g w) (h : s.Productive env w) {id : Option ProductionId}
    {p : Progress σ} (hSteps : Steps env (fun _ => True) s id p) :
    ProductiveAfter env w p ∧ ∀ q, id = some q → s.stack.Reducible env.language.table q := by
  have hStarts : Productive env w { s with steps := s.steps + 1 } :=
    ⟨h.linked, h.nodes, h.skip, h.reuse, h.pending, h.deferred⟩
  cases hSteps with
  | stopped => exact ⟨hStarts.cancelled, by simp⟩
  | reduced hTakes =>
    obtain ⟨ht, -, hReducible⟩ := hTakes.productive hRules hStarts
    exact ⟨ht, hReducible⟩
  | acted hTakes hActs =>
    obtain ⟨ht, hTaken, -⟩ := hTakes.productive hRules hStarts
    obtain ⟨hKnown, hGoto⟩ := hTaken _ rfl
    obtain ⟨hAfter, hReducible⟩ := hActs.productive hRules ht hKnown hGoto
    exact ⟨hAfter, hTakes.stack_eq ▸ hReducible⟩

theorem Productive.next (hRules : env.language.FromRules g w) (h : s.Productive env w) :
    ProductiveAfter env w (s.next env) ∧ ∀ id, s.reduction? env = some id → s.stack.Reducible env.language.table id :=
  (steps_next env.keeps_true s).productive hRules h

theorem Productive.reaches (hRules : env.language.FromRules g w) (h : s.Productive env w) (hReaches : Reaches env s t) :
    t.Productive env w := by
  apply hReaches.invariant h
  intro s t hs hNext
  have hAfter := (hs.next hRules).1
  rwa [hNext] at hAfter

theorem Productive.run (hRules : env.language.FromRules g w) (h : s.Productive env w) {limit : Nat} {root : Subtree}
    {status : ParseStatus} (hRun : Session.run env limit s = some (root, status, t)) :
    root.All (Instance env.language.table w) := by
  obtain ⟨last, hReaches, hLast⟩ := reaches_of_run hRun
  have hAfter := ((h.reaches hRules hReaches).next hRules).1
  rwa [hLast] at hAfter

end Session

/-! ## Parses -/

/-- A tree that was parsed by a language of the grammar and perhaps edited since. -/
inductive Grammar.Grows (g : Grammar) : Tree → Prop
  | parsed {σ : Type} {p : Parser} {host : Host σ} {input : σ} {old : Option Tree} {next : NodeId} {limit : Nat}
    {parsed : Parser.Parsed σ} : p.language.BuiltFrom g → (∀ tree ∈ old, Grows g tree) →
    p.parse limit host input old next = some parsed → Grows g parsed.tree
  | edited {tree : Tree} (e : Edit) (id : NodeId) : Grows g tree → Grows g (tree.edited e id).1

namespace Language.FromRules

variable {p : Parser} {g : Grammar} {w : LoweredGrammar} {host : Host σ} {input : σ} {old : Option Tree}
  {next : NodeId} {limit : Nat} {parsed : Parser.Parsed σ}

/-- Whatever the parse begins with, so does its session. -/
theorem productive_start (hOld : ∀ tree ∈ old, tree.root.All (Instance p.language.table w)) :
    Session.Productive ⟨p.language, host, p.options, next⟩ w
      (.start p.marks input (old.filter fun tree => tree.language.sameAs p.language) next) :=
  Session.productive_start fun tree hTree => hOld tree (Option.eq_some_of_filter_eq_some hTree)

theorem parse_instances (h : p.language.FromRules g w) (hOld : ∀ tree ∈ old, tree.root.All (Instance p.language.table w))
    (hParse : p.parse limit host input old next = some parsed) :
    parsed.tree.root.All (Instance p.language.table w) := by
  rw [Parser.parse] at hParse
  obtain ⟨⟨root, status, s⟩, hRun, rfl⟩ := Option.map_eq_some_iff.mp hParse
  have hRoot := (productive_start hOld).run h hRun
  cases status with
  | complete =>
    have hRepeats := h.toBuiltFrom.repeats h.lower h.repetitions h.count
    exact (instance_balanced (b := ⟨p.language, fun id => next ≤ id⟩) hRepeats s.nextId root hRoot).1
  | cancelled => exact hRoot

theorem instances_of_grows {l : Language} (h : l.FromRules g w) {tree : Tree} (hTree : g.Grows tree) :
    tree.root.All (Instance l.table w) := by
  induction hTree with
  | @parsed σ p host input old next limit parsed hBuilt _ hParse ih =>
    have hTable : p.language.table = l.table := Except.ok.inj (hBuilt.build.symm.trans h.build)
    have hRules : p.language.FromRules g w := ⟨hBuilt, h.lower, by rw [hTable]; exact h.count, h.extras, h.repetitions⟩
    rw [← hTable] at ih ⊢
    exact hRules.parse_instances ih hParse
  | edited e id _ ih => exact (instance_edited _ id _ ih).1

end Language.FromRules

/-- The stack of a session stays linked by the table, every reduction finds its children and a state to go to, and in the
tree that is returned every node with a production is an instance of it. -/
theorem parse_productions {p : Parser} {g : Grammar} {w : LoweredGrammar} (hBuilt : p.language.BuiltFrom g)
    (hLower : g.lower = .ok w) (hCount : p.language.table.productions.size < 65535) (hExtras : g.ExtrasApart)
    (hRepetitions : g.RepeatsApart) (host : Host σ) (input : σ) {old : Option Tree} (hOld : ∀ tree ∈ old, g.Grows tree)
    (next : NodeId) :
    (∀ s, Session.Reaches ⟨p.language, host, p.options, next⟩
        (.start p.marks input (old.filter fun tree => tree.language.sameAs p.language) next) s →
      s.stack.Linked p.language.table ∧
        ∀ id, s.reduction? ⟨p.language, host, p.options, next⟩ = some id → s.stack.Reducible p.language.table id) ∧
    ∀ limit parsed, p.parse limit host input old next = some parsed → parsed.tree.root.All (Made w) := by
  have hRules : p.language.FromRules g w := ⟨hBuilt, hLower, hCount, hExtras, hRepetitions⟩
  have hFormer := fun tree hTree => hRules.instances_of_grows (hOld tree hTree)
  constructor
  · intro s hReaches
    have hs := (Language.FromRules.productive_start hFormer).reaches hRules hReaches
    exact ⟨hs.linked, (hs.next hRules).2⟩
  · intro limit parsed hParse
    exact (hRules.parse_instances hFormer hParse).mono fun _ _ hInstance => hInstance.made

/-- Any number of `a`, with blanks around them. -/
def Grammar.spaced : Grammar where
  name := "spaced"
  tokens := [("blank", .chars ⟨#[(' ', ' ')], false⟩)]
  extras := ["blank"]
  rules := [⟨"s", [.symbol "s", .literal "a"], 0, .none⟩, ⟨"s", [], 0, .none⟩]

/-- The table of `Grammar.spaced`. -/
def Table.spaced : Table where
  name := "spaced"
  symbols := #[.endOfInput, ⟨"blank", true, true, true, false⟩, ⟨"a", true, false, false, false⟩,
    ⟨"s", true, true, false, false⟩]
  tokenCount := 3
  fields := #[]
  productions := #[⟨⟨3⟩, 2, []⟩, ⟨⟨3⟩, 0, []⟩]
  stateCount := 3
  actions := #[some (.reduce 1), none, some (.reduce 1), some .accept, none, some (.shift 2), some (.reduce 0), none,
    some (.reduce 0)]
  gotos := #[some 1, none, none]
  lexNodes := #[.accept ⟨1⟩, .chars ⟨#[(' ', ' ')], false⟩ 0, .accept ⟨2⟩, .chars ⟨#[('a', 'a')], false⟩ 2]
  tokenLex := #[.none, ⟨some 1, false, false⟩, ⟨some 3, true, false⟩]
  extras := [⟨1⟩]
  externals := []
  start := ⟨3⟩
  word := none

def Language.spaced : Language where
  handle := 0
  table := .spaced
  version := Blob.formatVersion
  modes := #[⟨[⟨1⟩, ⟨2⟩], []⟩]
  stateModes := #[0, 0, 0]
  errorMode := ⟨[⟨1⟩, ⟨2⟩], []⟩
  keywords := []
  scanner := none

theorem Language.spaced_builtFrom : Language.spaced.BuiltFrom .spaced :=
  ⟨by cbv, by cbv, by cbv, by cbv⟩

def Parser.spaced : Parser := .ofLanguage .spaced

/-- Four of them, parsed again after the second one was typed anew. -/
theorem spaced_productions : ∃ (tree : Tree) (w : LoweredGrammar) (parsed : Parser.Parsed Unit),
    Grammar.spaced.Grows tree ∧ Grammar.spaced.lower = .ok w ∧
    Parser.spaced.parse 40 (Parser.plainHost "a aa a".toUTF8) () (some tree) 20 = some parsed ∧
    parsed.tree.root.All (Made w) := by
  have hParses : ((Parser.spaced.parse 40 (Parser.plainHost "a aa a".toUTF8) () none 0).map fun first =>
      (Parser.spaced.parse 40 (Parser.plainHost "a aa a".toUTF8) () (some (first.tree.edited ⟨2, 3, 3⟩ 15).1) 20).isSome) =
      some true := by decide +kernel
  obtain ⟨first, hFirst, hAgain⟩ := Option.map_eq_some_iff.mp hParses
  obtain ⟨parsed, hParsed⟩ := Option.isSome_iff_exists.mp hAgain
  obtain ⟨w, states, hBuilt⟩ := Language.spaced_builtFrom.built
  have hGrows : Grammar.spaced.Grows (first.tree.edited ⟨2, 3, 3⟩ 15).1 :=
    .edited _ _ (.parsed Language.spaced_builtFrom (fun _ hTree => absurd hTree (Option.not_mem_none _)) hFirst)
  refine ⟨_, w, parsed, hGrows, hBuilt.lower, hParsed, ?_⟩
  refine (parse_productions Language.spaced_builtFrom hBuilt.lower (by decide) (by decide) (by decide) _ _ ?_ _).2 _ _ hParsed
  intro tree hTree
  obtain rfl := Option.some.inj hTree
  exact hGrows

end Reparse
