import Reparse.Proofs.Parse.Nodes
/-!
# Where the nodes of a parse come from

A parse takes no node of the old tree twice: what is at hand in a session is on the stack, waits, or is still ahead in the
old tree, and a step only moves nodes from one to another or makes new ones with numbers of their own. So the parsed tree
`Renews` the old one. It takes the error of the last skip apart by its number, which no other node at hand has.
-/
namespace Reparse

open Subtree

variable {σ : Type}

@[simp] theorem ParseStack.nodesOf_push (s : ParseStack) (state : StateId) (x : Subtree) :
    nodesOf (s.push state x).subtrees = nodesOf s.subtrees + x.nodes := by
  rw [subtrees_push, nodesOf_append, nodesOf_cons, nodesOf_nil, add_zero]

/-- The nodes of a lookahead that was reused. -/
def Lookahead.nodes : Lookahead → Multiset Subtree
  | .reused s => s.nodes
  | _ => 0

namespace Session

variable {env : SessionEnv σ} {s t : Session σ} {la : Lookahead} {leaf : Subtree} {nextId first : NodeId}
  {old held rest : Multiset Subtree}

/-- The nodes of a lookahead, if there is one. -/
def waiting (la : Option Lookahead) : Multiset Subtree := (la.map Lookahead.nodes).getD 0

@[simp] theorem waiting_none : waiting none = 0 := rfl

@[simp] theorem waiting_some (la : Lookahead) : waiting (some la) = la.nodes := rfl

/-- The nodes that an old tree still has to offer. -/
def offered (reuse : Option ReuseCursor) : Multiset Subtree := (reuse.map fun c => ReuseCursor.nodesAhead c.frames).getD 0

@[simp] theorem offered_some (c : ReuseCursor) : offered (some c) = ReuseCursor.nodesAhead c.frames := rfl

/-- The nodes at hand. -/
def atHand (s : Session σ) : Multiset Subtree :=
  nodesOf s.stack.subtrees + (waiting s.pending + waiting s.deferred + offered s.reuse)

theorem offered_le_of_rel {a b : Option ReuseCursor} (h : Option.Rel ReuseCursor.Moves a b) : offered b ≤ offered a := by
  cases h with
  | none => exact le_refl _
  | some h => exact h.nodesAhead_le

/-- What is at hand, beside nodes that the step holds, was drawn from the old nodes, each once, or made since; and the
number of the last skip's error is that of no other node. -/
structure Drawn (first : NodeId) (old : Multiset Subtree) (s : Session σ) (held : Multiset Subtree) : Prop where
  old_lt : ∀ x ∈ old, x.id < first
  nodes : Renews first s.nextId old (s.atHand + held)
  skip : ∀ x, s.lastSkip = some x → x.id < s.nextId ∧ ∀ y ∈ s.atHand + held, y.id = x.id → y = x

/-- What one step does to the nodes is enough. -/
theorem Drawn.advance (h : Drawn first old s held) (hNodes : Renews s.nextId t.nextId (s.atHand + held) (t.atHand + rest))
    (hSkip : ∀ x, t.lastSkip = some x → s.lastSkip = some x ∨ x ∈ t.atHand ∧ s.nextId ≤ x.id) : Drawn first old t rest where
  old_lt := h.old_lt
  nodes := h.nodes.trans hNodes
  skip x hx := by
    have hBefore := h.nodes.lt h.old_lt
    rcases hSkip x hx with hx | ⟨hMem, hId⟩
    · obtain ⟨hLt, hOnly⟩ := h.skip x hx
      refine ⟨Nat.lt_of_lt_of_le hLt hNodes.le, fun y hy hSame => ?_⟩
      rcases hNodes.origin hBefore y hy with hy | ⟨hLater, -⟩
      · exact hOnly y hy hSame
      · exact absurd (hSame ▸ hLt) (Nat.not_lt.mpr hLater)
    · have hMem : x ∈ t.atHand + rest := Multiset.mem_add.mpr (.inl hMem)
      refine ⟨hNodes.lt hBefore x hMem, ?_⟩
      rcases hNodes.origin hBefore x hMem with hOld | ⟨-, hOnly⟩
      · exact absurd (hBefore x hOld) (Nat.not_lt.mpr hId)
      · exact hOnly

/-- Nodes may be passed on or dropped. -/
theorem Drawn.drop (h : Drawn first old s held) (hNodes : t.atHand + rest ≤ s.atHand + held) (hId : t.nextId = s.nextId)
    (hSkip : t.lastSkip = s.lastSkip) : Drawn first old t rest :=
  h.advance (.of_le hId.ge hNodes) fun _ hx => .inl (hSkip ▸ hx)

theorem Drawn.wait (h : Drawn first old s la.nodes) : Drawn first old { s with pending := some la } 0 := by
  refine h.drop ?_ rfl rfl
  calc nodesOf s.stack.subtrees + (la.nodes + waiting s.deferred + offered s.reuse) + 0
      ≤ nodesOf s.stack.subtrees + (la.nodes + waiting s.deferred + offered s.reuse) + waiting s.pending :=
        Multiset.add_le_add_left (Multiset.zero_le _)
    _ = s.atHand + la.nodes := by
        rw [atHand]
        abel

theorem Drawn.defer (h : Drawn first old s la.nodes) (symbol : Symbol) :
    Drawn first old { s with deferred := some la, pending := some (.missing symbol) } 0 := by
  refine h.drop ?_ rfl rfl
  calc nodesOf s.stack.subtrees + (0 + la.nodes + offered s.reuse) + 0
      ≤ nodesOf s.stack.subtrees + (0 + la.nodes + offered s.reuse) + (waiting s.pending + waiting s.deferred) :=
        Multiset.add_le_add_left (Multiset.zero_le _)
    _ = s.atHand + la.nodes := by
        rw [atHand]
        abel

/-! ## Stacks -/

theorem Drawn.stack (h : Drawn first old s held) : Renews first s.nextId old (nodesOf s.stack.subtrees) := by
  refine h.nodes.mono (le_refl _) ?_
  rw [atHand, add_assoc]
  exact Multiset.le_add_right _ _

theorem Drawn.reduce (h : Drawn first old s held) (id : ProductionId) (extent : Nat) :
    Drawn first old (s.reduce env id extent) held := by
  obtain ⟨top, children, below, hStack, -, -, hReduce⟩ := reduce_eq env s id extent
  rw [hReduce]
  refine h.advance ?_ fun x hx => .inl hx
  have hNode := (Renews.refl s.nextId (nodesOf (ParseStack.subtrees children))).node
    (s := (ofChildren env.language s.nextId (env.language.table.production id).lhs (ParseStack.subtrees children) id
      (ParseStack.state below)).withLookahead
        (extent - (ParseStack.position below + totalOf size (ParseStack.subtrees children)))) rfl
  refine hNode.beside (nodesOf (ParseStack.subtrees below) + nodesOf (ParseStack.subtrees top) +
    (waiting s.pending + waiting s.deferred + offered s.reuse) + held) (le_of_eq ?_) (le_of_eq ?_)
  · simp only [atHand, hStack, ParseStack.subtrees_append, nodesOf_append]
    abel
  · simp only [atHand, ParseStack.subtrees_pushExtras, nodesOf_append, ParseStack.nodesOf_push]
    abel

/-- An error is put over nodes from the top of the stack and over such as are held. -/
theorem Drawn.pushError {below : ParseStack} {children : List Subtree} (h : Drawn first old s held) (top : ParseStack)
    (hStack : s.stack = top ++ below) (hChildren : nodesOf children + rest ≤ nodesOf top.subtrees + held)
    (stats : ParseStats) :
    Drawn first old { s with
      stack := below.pushExtra (.errorNode env.language s.nextId children below.state)
      lastSkip := some (.errorNode env.language s.nextId children below.state)
      nextId := s.nextId + 1, stats } rest := by
  have hNode := (Renews.refl s.nextId (nodesOf children)).node
    (s := errorNode env.language s.nextId children below.state) rfl
  refine h.advance ?_ fun x hx => .inr ?_
  · refine hNode.beside (nodesOf below.subtrees + (waiting s.pending + waiting s.deferred + offered s.reuse) + rest) ?_
      (le_of_eq ?_)
    · calc nodesOf below.subtrees + (waiting s.pending + waiting s.deferred + offered s.reuse) + rest + nodesOf children
          = nodesOf below.subtrees + (waiting s.pending + waiting s.deferred + offered s.reuse) + (nodesOf children + rest) := by
            abel
        _ ≤ nodesOf below.subtrees + (waiting s.pending + waiting s.deferred + offered s.reuse) +
            (nodesOf top.subtrees + held) := Multiset.add_le_add_left hChildren
        _ = s.atHand + held := by
            simp only [atHand, hStack, ParseStack.subtrees_append, nodesOf_append]
            abel
    · simp only [atHand, ParseStack.pushExtra, ParseStack.nodesOf_push]
      abel
  · obtain rfl := Option.some.inj hx
    refine ⟨?_, Nat.le_refl _⟩
    simp only [atHand, ParseStack.pushExtra, ParseStack.nodesOf_push, Multiset.mem_add]
    exact .inl (.inr (self_mem_nodes _))

theorem Drawn.popStack (h : Drawn first old s held) (depth : Nat) : Drawn first old (s.popStack env depth) held := by
  obtain ⟨top, below, hStack, -, hPop⟩ := popStack_eq env s depth
  rw [hPop]
  exact h.pushError top hStack (le_refl _) _

/-- The error of the last skip is the one on the stack that has its number. -/
theorem Drawn.skipLeaf (h : Drawn first old s leaf.nodes) : Drawn first old (s.skipLeaf env leaf) 0 := by
  rw [Session.skipLeaf]
  cases hSplit : s.splitAtSkip with
  | none => exact h.pushError [] rfl (by simp) _
  | some parts =>
    obtain ⟨previous, between, below⟩ := parts
    obtain ⟨above, entry, hStack, rfl, hLast, hId⟩ := splitAtSkip_eq hSplit
    have hEntry : entry.subtree = previous := by
      refine (h.skip previous hLast).2 _ ?_ hId
      simp only [atHand, hStack, ParseStack.subtrees_append, ParseStack.subtrees_cons, nodesOf_append, nodesOf_cons,
        Multiset.mem_add]
      exact .inl (.inl (.inl (.inr (.inl (self_mem_nodes _)))))
    refine h.pushError (above ++ [entry]) (hStack.trans (List.append_cons ..)) ?_ _
    simp only [ParseStack.subtrees_append, ParseStack.subtrees_cons, ParseStack.subtrees_nil, List.nil_append, hEntry,
      nodesOf_append, nodesOf_cons, nodesOf_nil, add_zero]
    exact Multiset.add_le_add_right (Multiset.add_le_add_right (nodesOf_le_nodes previous))

/-! ## Steps -/

theorem Stands.renews (h : Stands env s la leaf nextId) : Renews s.nextId nextId la.nodes leaf.nodes := by
  cases h with
  | token t => exact (Renews.of_le (Nat.le_refl _) (Multiset.zero_le _)).node rfl
  | missing symbol => exact (Renews.of_le (Nat.le_refl _) (Multiset.zero_le _)).node rfl
  | shared => exact .refl _ _

theorem Leaves.renews (h : Leaves env s la leaf nextId) : Renews s.nextId nextId la.nodes leaf.nodes := by
  cases h with
  | stands h => exact h.renews
  | restated leaf =>
    refine Renews.node (.of_le (Nat.le_refl _) ?_) rfl
    exact nodesOf_le_nodes leaf

theorem Takes.drawn (h : Drawn first old s 0) {next : Option Lookahead} {id : Option ProductionId} (hTakes : Takes env s next id t) :
    Drawn first old t (waiting next) := by
  cases hTakes with
  | pending hPending =>
    refine h.drop (le_of_eq ?_) rfl rfl
    simp only [atHand, hPending, waiting_none, waiting_some]
    abel
  | deferred _ hDeferred =>
    refine h.drop (le_of_eq ?_) rfl rfl
    simp only [atHand, hDeferred, waiting_none, waiting_some]
    abel
  | @reused c c' subtree _ _ _ hReuse hFinds =>
    refine h.drop ?_ rfl rfl
    simp only [atHand, hReuse, offered_some, waiting_some, Lookahead.nodes, add_zero, add_assoc]
    refine Multiset.add_le_add_left (Multiset.add_le_add_left (Multiset.add_le_add_left ?_))
    rw [add_comm]
    exact hFinds.nodes_le
  | @reduced c c' id extent _ _ hReuse hFinds =>
    have hMoved : Drawn first old { s with reuse := some c' } 0 := by
      refine h.drop ?_ rfl rfl
      simp only [atHand, hReuse, offered_some, add_zero]
      refine Multiset.add_le_add_left (Multiset.add_le_add_left ?_)
      exact (Multiset.le_add_left _ _).trans hFinds.nodes_le
    exact hMoved.reduce id extent
  | lexed _ _ hMoves =>
    refine h.drop ?_ rfl rfl
    simp only [atHand, waiting_some, Lookahead.nodes, add_zero]
    exact Multiset.add_le_add_left (Multiset.add_le_add_left (offered_le_of_rel hMoves))

theorem Drawn.accept (h : Drawn first old s held) : Renews first (s.accept env).2.nextId old (s.accept env).1.nodes := by
  have hRoots := roots_accept env s
  generalize s.accept env = result at hRoots ⊢
  cases hRoots with
  | extras => exact h.stack.node rfl
  | alone hAlone => simpa [hAlone] using h.stack
  | @wrapped leading trailing root hParts =>
    refine (h.stack.mono (le_refl _) ?_).node rfl
    rw [hParts]
    change nodesOf (leading ++ root.children ++ trailing) ≤ _
    rw [List.append_assoc, nodesOf_append, nodesOf_append, nodesOf_append, nodesOf_cons]
    exact Multiset.add_le_add_left (Multiset.add_le_add_right (nodesOf_le_nodes root))

theorem Drawn.cancelled (h : Drawn first old s held) :
    Renews first (s.cancelledRoot env).2.nextId old (s.cancelledRoot env).1.nodes := by
  obtain ⟨left, hRoot⟩ : ∃ left, (s.cancelledRoot env).1.children =
    s.stack.subtrees ++ [errorLeaf s.nextId left 0 s.state errorLexMode] := ⟨_, rfl⟩
  have hRest : Renews s.nextId (s.nextId + 1) 0 (errorLeaf s.nextId left 0 s.state errorLexMode).nodes :=
    (Renews.refl s.nextId 0).node rfl
  refine Renews.node ?_ rfl
  have hChildren := h.stack.add hRest
  rw [add_zero] at hChildren
  refine hChildren.mono (le_refl _) (le_of_eq ?_)
  rw [hRoot, nodesOf_append, nodesOf_cons, nodesOf_nil, add_zero]

/-- After the step the nodes at hand were drawn, or those of the root were. -/
def DrawnAfter (first : NodeId) (old : Multiset Subtree) : Progress σ → Prop
  | .running s => s.Drawn first old 0
  | .finished root _ s => Renews first s.nextId old root.nodes

theorem Acts.drawn (h : Drawn first old s la.nodes) {id : Option ProductionId} {p : Progress σ}
    (hActs : Acts env (fun _ => True) s la id p) : DrawnAfter first old p := by
  have hMade {leaf : Subtree} {nextId : NodeId} (hLeaf : Renews s.nextId nextId la.nodes leaf.nodes) :
      Drawn first old { s with nextId } leaf.nodes :=
    h.advance (hLeaf.beside s.atHand (le_refl _) (le_refl _)) fun x hx => .inl hx
  have hAsked {r : Session σ} (hAsks : Asks (fun _ => True) s r) : Drawn first old r la.nodes := by
    cases hAsks
    exact h.drop (le_refl _) rfl rfl
  cases hActs with
  | interior =>
    refine h.drop (le_of_eq ?_) rfl rfl
    simp only [atHand, ParseStack.nodesOf_push, Lookahead.nodes]
    abel
  | shift _ _ hLeaves =>
    refine (hMade hLeaves.renews).drop (le_of_eq ?_) rfl rfl
    simp only [atHand, ParseStack.nodesOf_push]
    abel
  | @reduce _ production => exact (h.reduce production (la.extent s.position)).wait
  | accept => exact h.accept
  | extra _ _ hStands =>
    refine (hMade hStands.renews).drop (le_of_eq ?_) rfl rfl
    simp only [atHand, ParseStack.pushExtra, ParseStack.nodesOf_push]
    abel
  | dropped => exact h
  | insert _ _ hAsks => exact (hAsked hAsks).defer _
  | pop _ _ hAsks => exact ((hAsked hAsks).popStack _).wait
  | @skipError t _ hAsks =>
    cases hAsks
    have hLeaf : Renews s.nextId (s.nextId + 1) 0
        (errorLeaf s.nextId t.size t.lookahead s.state t.lexMode).nodes := (Renews.refl s.nextId 0).node rfl
    refine h.advance (hLeaf.beside s.atHand (le_refl _) (le_of_eq ?_)) (by simp)
    simp only [atHand, ParseStack.pushExtra, ParseStack.nodesOf_push]
    abel
  | @skip _ leaf nextId _ _ _ hAsks _ hStands =>
    cases hAsks
    refine Drawn.skipLeaf ?_
    exact (hMade hStands.renews).drop (le_refl _) rfl rfl
  | wrap hAsks =>
    cases hAsks
    have hNode := (Renews.refl s.nextId (nodesOf s.stack.subtrees)).node
      (s := errorNode env.language s.nextId s.stack.subtrees 0) rfl
    refine h.advance (hNode.beside (waiting s.pending + waiting s.deferred + offered s.reuse) (le_of_eq ?_) (le_of_eq ?_))
      (by simp)
    · rw [atHand, add_comm]
      exact (add_zero _).symm
    · simp only [atHand, ParseStack.nodesOf_push, ParseStack.subtrees_nil, nodesOf_nil, makeError, takeNodeId]
      abel
  | giveUp hAsks =>
    cases hAsks
    exact h.stack.node rfl

theorem Drawn.next (h : Drawn first old s 0) : DrawnAfter first old (s.next env) := by
  have hStarts : Drawn first old { s with steps := s.steps + 1 } 0 := h.drop (le_refl _) rfl rfl
  have hSteps := steps_next env.keeps_true s
  generalize s.reduction? env = id, s.next env = p at hSteps
  cases hSteps with
  | stopped => exact hStarts.cancelled
  | reduced hTakes => exact hTakes.drawn hStarts
  | acted hTakes hActs => exact hActs.drawn (hTakes.drawn hStarts)

theorem Drawn.run (h : Drawn first old s 0) {limit : Nat} {root : Subtree} {status : ParseStatus}
    (hRun : run env limit s = some (root, status, t)) : Renews first t.nextId old root.nodes := by
  obtain ⟨last, hReaches, hLast⟩ := reaches_of_run hRun
  have hReached : Drawn first old last 0 := hReaches.invariant (I := fun s => Drawn first old s 0) h fun s t hs hNext => by
    have hAfter : DrawnAfter first old (s.next env) := hs.next
    rwa [hNext] at hAfter
  have hAfter : DrawnAfter first old (last.next env) := hReached.next
  rwa [hLast] at hAfter

end Session

end Reparse
