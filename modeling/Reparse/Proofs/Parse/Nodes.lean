import Reparse.Parse.Parser
import Reparse.Proofs.Parse.Reuse
import Reparse.Proofs.Tree.Balanced
/-!
# What all nodes of a tree are

A property that tokens have, and every node over children with it, is one of all nodes that a parse returns, if the old
tree has it: sessions, reuse and balancing make nodes in no other way.
-/
namespace Reparse

open Subtree

variable {σ : Type}

namespace Subtree

/-- A property of nodes that all ways to make one give it. -/
structure Lasting (l : Language) (P : NodeInfo → List Subtree → Prop) : Prop where
  token : ∀ id symbol size lookahead state mode scannerState,
    P (leaf l id symbol size lookahead state mode scannerState).info []
  skipped : ∀ id size lookahead state mode, P (errorLeaf id size lookahead state mode).info []
  absent : ∀ id symbol state mode, P (missingLeaf id symbol state mode).info []
  parent : ∀ id symbol children production state, (∀ c ∈ children, c.All P) →
    P (ofChildren l id symbol children production state).info children
  /-- These say nothing of the children. -/
  changed : ∀ info children id lookahead state, P info children → P { info with id, lookahead, state } children
  /-- Whether a node is an extra may be taken over from another one of its symbol. -/
  extra : ∀ info old new children, info.symbol = new.symbol → P info old → P new children →
    P { new with extra := info.extra } children

namespace Lasting

variable {l : Language} {P : NodeInfo → List Subtree → Prop} {s : Subtree} {children : List Subtree}

theorem ofChildren (hP : Lasting l P) (h : ∀ c ∈ children, c.All P) (id : NodeId) (symbol : Symbol)
    (production : ProductionId) (state : StateId) : (ofChildren l id symbol children production state).All P :=
  .node (hP.parent id symbol children production state h) h

theorem marked (hP : Lasting l P) (h : s.All P) {info : NodeInfo} {old : List Subtree} (hInfo : P info old)
    (hSymbol : info.symbol = s.symbol) : (s.update fun new => { new with extra := info.extra }).All P :=
  h.update (hP.extra _ _ _ _ hSymbol hInfo h.here)

/-- Skipped input is an extra. -/
theorem errorNode (hP : Lasting l P) (h : ∀ c ∈ children, c.All P) (id : NodeId) (state : StateId) :
    (errorNode l id children state).All P :=
  hP.marked (hP.ofChildren h id .error noProduction state) (hP.skipped id 0 0 state errorLexMode) rfl

/-- A token that the source lacks is no extra. -/
theorem unmarked (hP : Lasting l P) (h : s.All P) : (s.update fun info => { info with extra := false }).All P :=
  hP.marked h (hP.absent 0 s.symbol 0 errorLexMode) rfl

theorem withLookahead (hP : Lasting l P) (h : s.All P) (bytes : Nat) : (s.withLookahead bytes).All P :=
  h.update (hP.changed _ _ _ _ _ h.here)

theorem restated (hP : Lasting l P) (h : s.All P) (id : NodeId) (state : StateId) :
    (s.update fun info => { info with id, state }).All P :=
  h.update (hP.changed _ _ _ _ _ h.here)

/-! ## Balancing -/

theorem build {m : Chain.Maker} (hP : Lasting m.language P) {c : Chain} (weights : Array Nat) {lo hi : Nat}
    {leading trailing : List Subtree} (hLo : lo < hi)
    (h : ∀ s ∈ leading ++ c.span lo (hi - lo) ++ trailing, s.All P) (id : NodeId) :
    (c.build m weights lo hi leading trailing id).1.All P := by
  fun_induction Chain.build m c weights lo hi leading trailing id with
  | case1 lo hi leading trailing id _ _ split hBounds left id' hLeft right id'' hRight between children ihLeft ihRight =>
    obtain ⟨hSplit, hBelow⟩ : lo < split ∧ split < hi := ⟨hBounds.1, hBounds.2⟩
    rw [c.span_split hSplit hBelow] at h
    simp only [List.mem_append] at h
    have hFirst := ihLeft hSplit fun s hs => h s (by simp at hs; simp [hs])
    have hSecond := ihRight hBelow fun s hs => h s (by simp at hs; simp [hs])
    rw [hLeft] at hFirst
    rw [hRight] at hSecond
    refine hP.ofChildren (fun s hs => ?_) _ _ _ _
    simp only [children, List.mem_append, List.mem_singleton] at hs
    rcases hs with (((hs | rfl) | hs) | rfl) | hs
    · exact h s (by simp [hs])
    · exact hFirst
    · exact h s (.inl (.inr (.inl (.inr hs))))
    · exact hSecond
    · exact h s (by simp [hs])
  | case2 lo hi leading trailing id first hDone =>
    refine h _ ?_
    rw [c.span_one hLo hDone]
    simp [first, Chain.item]

theorem rebuildChain (hP : Lasting l P) {info : NodeInfo} {pieces : List Subtree} (h : (node info children).All P)
    (hPieces : ∀ s ∈ pieces, s.All P) (id : NodeId) : (rebuildChain l info children pieces id).1.All P := by
  obtain ⟨_, hWhole⟩ := Chain.ofPieces_fits pieces
  rw [Chain.pieces] at hWhole
  rw [Subtree.rebuildChain]
  dsimp only
  split
  · exact h
  next hItems =>
    apply hP.withLookahead
    have hMaker : Lasting (Chain.Maker.mk l info.symbol info.production).language P := hP
    apply hMaker.build
    · omega
    · rwa [Nat.sub_zero, hWhole]

variable {b : Balancing}

mutual

theorem balanced (hP : Lasting b.language P) (id : NodeId) : ∀ s : Subtree, s.All P → (balanced b id s).1.All P
  | .node info children, h => by
    rw [Subtree.balanced]
    split
    · exact h
    split
    · exact hP.rebuildChain h (hP.chainPieces info.symbol id children h.child) _
    have hAll := hP.balancedAll id children h.child
    dsimp only
    split
    · exact h
    · exact hP.marked (hP.withLookahead (hP.ofChildren hAll _ _ _ _) _) h.here rfl

theorem balancedAll (hP : Lasting b.language P) (id : NodeId) : ∀ children : List Subtree, (∀ c ∈ children, c.All P) →
    ∀ c ∈ (balancedAll b id children).1, c.All P
  | [], h => by
    rw [Subtree.balancedAll]
    exact h
  | c :: rest, h => by
    rw [Subtree.balancedAll]
    obtain ⟨hFirst, hRest⟩ := List.forall_mem_cons.mp h
    exact List.forall_mem_cons.mpr ⟨hP.balanced id c hFirst, hP.balancedAll _ rest hRest⟩

theorem chainPieces (hP : Lasting b.language P) (symbol : Symbol) (id : NodeId) : ∀ children : List Subtree,
    (∀ c ∈ children, c.All P) → ∀ c ∈ (chainPieces b symbol id children).1, c.All P
  | [], h => by
    rw [Subtree.chainPieces]
    exact h
  | .node info children :: rest, h => by
    obtain ⟨hFirst, hRest⟩ := List.forall_mem_cons.mp h
    rw [Subtree.chainPieces]
    dsimp only
    split
    · exact List.forall_mem_append.mpr
        ⟨hP.chainPieces symbol id children hFirst.child, hP.chainPieces symbol _ rest hRest⟩
    · refine List.forall_mem_append.mpr ⟨?_, hP.chainPieces symbol _ rest hRest⟩
      simpa using hP.balanced id (node info children) hFirst

end

end Lasting
end Subtree

/-- All nodes of a lookahead that was reused have the property. -/
def Lookahead.Keeps (P : NodeInfo → List Subtree → Prop) (la : Lookahead) : Prop := ∀ x, la = .reused x → x.All P

namespace Session

variable {env : SessionEnv σ} {P : NodeInfo → List Subtree → Prop} {s t : Session σ} {la : Lookahead} {leaf : Subtree}
  {nextId : NodeId}

/-- All nodes at hand have the property. -/
structure Keeps (P : NodeInfo → List Subtree → Prop) (s : Session σ) : Prop where
  stack : ∀ x ∈ s.stack.subtrees, x.All P
  skip : ∀ x, s.lastSkip = some x → x.All P
  reuse : ∀ c, s.reuse = some c → c.Ahead fun _ x => x.All P
  pending : ∀ la, s.pending = some la → la.Keeps P
  deferred : ∀ la, s.deferred = some la → la.Keeps P

theorem keeps_start {marks : LexMarks} {input : σ} {old : Option Tree} {firstId : NodeId}
    (hOld : ∀ tree ∈ old, tree.root.All P) : (start marks input old firstId).Keeps P where
  stack := by simp [start]
  skip x hx := by cases hx
  pending la hla := by cases hla
  deferred la hla := by cases hla
  reuse c hc := by
    obtain ⟨tree, hTree, rfl⟩ := Option.map_eq_some_iff.mp hc
    exact ReuseCursor.ahead_ofTree (hOld tree hTree)

theorem all_positioned (start : Nat) (x : Subtree) (h : x.All P) : ∀ entry ∈ x.positioned start, entry.2.All P :=
  fun _ hEntry => h.child _ (List.of_mem_zip hEntry).2

section Lasting

variable (hP : Lasting env.language P)
include hP

/-! ## Stacks -/

theorem Keeps.reduce (h : s.Keeps P) (id : ProductionId) (extent : Nat) : (s.reduce env id extent).Keeps P := by
  obtain ⟨top, children, below, hStack, -, -, hReduce⟩ := reduce_eq env s id extent
  have hNodes := h.stack
  rw [hStack] at hNodes
  simp only [ParseStack.subtrees_append, List.mem_append] at hNodes
  rw [hReduce]
  refine ⟨fun x hx => ?_, h.skip, h.reuse, h.pending, h.deferred⟩
  rw [ParseStack.subtrees_pushExtras, ParseStack.subtrees_push, List.mem_append, List.mem_append,
    List.mem_singleton] at hx
  rcases hx with (hx | rfl) | hx
  · exact hNodes x (.inl (.inl hx))
  · exact hP.withLookahead (hP.ofChildren (fun c hc => hNodes c (.inl (.inr hc))) _ _ _ _) _
  · exact hNodes x (.inr hx)

/-- An error is pushed that the next skip may join. -/
theorem Keeps.pushError {top below : ParseStack} (h : s.Keeps P) (hStack : s.stack = top ++ below)
    {children : List Subtree} (hChildren : ∀ c ∈ children, c.All P) (stats : ParseStats) (nextId : NodeId) :
    Keeps P { s with
      stack := below.pushExtra (.errorNode env.language s.nextId children below.state)
      lastSkip := some (.errorNode env.language s.nextId children below.state)
      nextId, stats } := by
  have hNode := hP.errorNode hChildren s.nextId below.state
  refine ⟨fun x hx => ?_, ?_, h.reuse, h.pending, h.deferred⟩
  · rw [ParseStack.pushExtra, ParseStack.subtrees_push, List.mem_append, List.mem_singleton] at hx
    rcases hx with hx | rfl
    · exact h.stack x (by simp [hStack, hx])
    · exact hNode
  · rintro x ⟨⟩
    exact hNode

theorem Keeps.popStack (h : s.Keeps P) (depth : Nat) : (s.popStack env depth).Keeps P := by
  obtain ⟨top, below, hStack, -, hPop⟩ := popStack_eq env s depth
  rw [hPop]
  exact h.pushError hP hStack (fun c hc => h.stack c (by simp [hStack, hc])) _ _

theorem Keeps.skipLeaf (h : s.Keeps P) (hLeaf : leaf.All P) : (s.skipLeaf env leaf).Keeps P := by
  obtain ⟨top, below, children, hStack, hChildren, hSkip⟩ := skipLeaf_eq env s leaf
  rw [hSkip]
  refine h.pushError hP hStack (fun c hc => ?_) _ _
  rcases hChildren c hc with rfl | hc | ⟨x, hx, hc⟩
  · exact hLeaf
  · exact h.stack c hc
  · exact (h.skip x hx).child c hc

/-! ## Steps -/

theorem Stands.keeps (h : Stands env s la leaf nextId) (hla : la.Keeps P) : leaf.All P := by
  cases h with
  | token t => exact .node (hP.token ..) (by simp)
  | missing symbol => exact .node (hP.absent ..) (by simp)
  | shared => exact hla _ rfl

theorem Leaves.keeps (h : Leaves env s la leaf nextId) (hla : la.Keeps P) : leaf.All P := by
  cases h with
  | stands h => exact h.keeps hP hla
  | restated => exact hP.restated (hla _ rfl) _ _

theorem Takes.keeps (h : s.Keeps P) {next : Option Lookahead} {id : Option ProductionId} (hTakes : Takes env s next id t) :
    t.Keeps P ∧ ∀ la, next = some la → la.Keeps P := by
  have hNone (la : Lookahead) (hla : none = some la) : la.Keeps P := by cases hla
  cases hTakes with
  | pending hPending =>
    refine ⟨⟨h.stack, h.skip, h.reuse, hNone, h.deferred⟩, ?_⟩
    rintro la ⟨⟩
    exact h.pending _ hPending
  | deferred _ hDeferred =>
    refine ⟨⟨h.stack, h.skip, h.reuse, h.pending, hNone⟩, ?_⟩
    rintro la ⟨⟩
    exact h.deferred _ hDeferred
  | @reused c c' subtree _ _ _ hReuse hFinds =>
    obtain ⟨hAhead, hFound⟩ := hFinds.ahead all_positioned (h.reuse c hReuse)
    refine ⟨⟨h.stack, h.skip, ?_, h.pending, h.deferred⟩, ?_⟩
    · rintro c ⟨⟩
      exact hAhead
    · rintro la ⟨⟩ x ⟨⟩
      exact (hFound _ rfl).1
  | @reduced c c' id extent _ _ hReuse hFinds =>
    have hMoved : Keeps P { s with reuse := some c' } := by
      refine ⟨h.stack, h.skip, ?_, h.pending, h.deferred⟩
      rintro c ⟨⟩
      exact (hFinds.ahead all_positioned (h.reuse _ hReuse)).1
    exact ⟨hMoved.reduce hP id extent, by simp⟩
  | lexed _ _ hMoves =>
    refine ⟨⟨h.stack, h.skip, ReuseCursor.ahead_of_rel all_positioned h.reuse hMoves, h.pending, h.deferred⟩, ?_⟩
    rintro la ⟨⟩ x ⟨⟩

theorem Keeps.accept (h : s.Keeps P) : (s.accept env).1.All P := by
  have hRoots := roots_accept env s
  generalize s.accept env = result at hRoots ⊢
  cases hRoots with
  | extras => exact hP.ofChildren h.stack _ _ _ _
  | alone hAlone => exact h.stack _ (by simp [hAlone])
  | wrapped hParts =>
    have hNodes := h.stack
    simp only [hParts, List.mem_append, List.mem_cons] at hNodes
    refine hP.ofChildren (fun c hc => ?_) _ _ _ _
    simp only [List.mem_append] at hc
    rcases hc with (hc | hc) | hc
    · exact hNodes c (.inl hc)
    · exact (hNodes _ (.inr (.inl rfl))).child c hc
    · exact hNodes c (.inr (.inr hc))

theorem Keeps.cancelled (h : s.Keeps P) : (s.cancelledRoot env).1.All P := by
  refine hP.ofChildren (fun c hc => ?_) _ _ _ _
  rcases List.mem_append.mp hc with hc | hc
  · exact h.stack c hc
  · rw [List.mem_singleton.mp hc]
    exact .node (hP.skipped ..) (by simp)

/-- After the step all nodes at hand have the property, or those of the root do. -/
def KeepsAfter (P : NodeInfo → List Subtree → Prop) : Progress σ → Prop
  | .running s => s.Keeps P
  | .finished root _ _ => root.All P

theorem Acts.keeps (h : s.Keeps P) (hla : la.Keeps P) {id : Option ProductionId} {p : Progress σ}
    (hActs : Acts env (fun _ => True) s la id p) : KeepsAfter P p := by
  have hPushed {x : Subtree} {below : ParseStack} (hBelow : ∀ x ∈ below.subtrees, x.All P) (hx : x.All P) (q : StateId) :
      ∀ y ∈ (below.push q x).subtrees, y.All P := by
    intro y hy
    rw [ParseStack.subtrees_push, List.mem_append, List.mem_singleton] at hy
    rcases hy with hy | rfl
    · exact hBelow y hy
    · exact hx
  have hWaits (a : Lookahead) (ha : some la = some a) : a.Keeps P := Option.some.inj ha ▸ hla
  cases hActs with
  | interior => exact ⟨hPushed h.stack (hla _ rfl) _, h.skip, h.reuse, h.pending, h.deferred⟩
  | shift _ _ hLeaves => exact ⟨hPushed h.stack (hLeaves.keeps hP hla) _, h.skip, h.reuse, h.pending, h.deferred⟩
  | @reduce _ production =>
    have hReduced := h.reduce hP production (la.extent s.position)
    exact ⟨hReduced.stack, hReduced.skip, hReduced.reuse, hWaits, hReduced.deferred⟩
  | accept => exact h.accept hP
  | extra _ _ hStands => exact ⟨hPushed h.stack (hStands.keeps hP hla) _, h.skip, h.reuse, h.pending, h.deferred⟩
  | dropped => exact h
  | insert _ _ hAsks =>
    cases hAsks
    refine ⟨h.stack, h.skip, h.reuse, ?_, hWaits⟩
    rintro a ⟨⟩ x ⟨⟩
  | @pop _ _ depth _ _ hAsks =>
    cases hAsks with
    | @mk lex stats =>
      have hAsked : Keeps P { s with lex, stats, recoveries := some (s.position, s.attempts) } :=
        ⟨h.stack, h.skip, h.reuse, h.pending, h.deferred⟩
      have hPopped := hAsked.popStack hP depth
      exact ⟨hPopped.stack, hPopped.skip, hPopped.reuse, hWaits, hPopped.deferred⟩
  | skipError hAsks =>
    cases hAsks
    exact ⟨hPushed h.stack (.node (hP.skipped ..) (by simp)) _, by simp, h.reuse, h.pending, h.deferred⟩
  | skip _ _ hAsks _ hStands =>
    cases hAsks
    refine Keeps.skipLeaf hP ?_ (hStands.keeps hP hla)
    exact ⟨h.stack, h.skip, h.reuse, h.pending, h.deferred⟩
  | wrap hAsks =>
    cases hAsks
    exact ⟨hPushed (by simp) (hP.errorNode h.stack _ _) _, by simp, h.reuse, h.pending, h.deferred⟩
  | giveUp hAsks =>
    cases hAsks
    exact hP.unmarked (hP.errorNode h.stack _ _)

theorem Keeps.next (h : s.Keeps P) : KeepsAfter P (s.next env) := by
  have hStarts : Keeps P { s with steps := s.steps + 1 } := ⟨h.stack, h.skip, h.reuse, h.pending, h.deferred⟩
  have hSteps := steps_next env.keeps_true s
  generalize s.reduction? env = id, s.next env = p at hSteps
  cases hSteps with
  | stopped => exact hStarts.cancelled hP
  | reduced hTakes => exact (hTakes.keeps hP hStarts).1
  | acted hTakes hActs =>
    obtain ⟨hTaken, hLookahead⟩ := hTakes.keeps hP hStarts
    exact hActs.keeps hP hTaken (hLookahead _ rfl)

theorem Keeps.run (h : s.Keeps P) {limit : Nat} {root : Subtree} {status : ParseStatus}
    (hRun : run env limit s = some (root, status, t)) : root.All P := by
  obtain ⟨last, hReaches, hLast⟩ := reaches_of_run hRun
  have hReached : last.Keeps P := hReaches.invariant h fun s t hs hNext => by
    have hAfter := hs.next hP
    rwa [hNext] at hAfter
  have hAfter := hReached.next hP
  rwa [hLast] at hAfter

end Lasting
end Session

/-- All nodes of a parsed tree have the property, if those of the old one do that it may reuse. -/
theorem Parser.parse_all {p : Parser} {P : NodeInfo → List Subtree → Prop} (hP : Lasting p.language P) {host : Host σ}
    {input : σ} {old : Option Tree} {next : NodeId} {limit : Nat} {parsed : Parsed σ}
    (hOld : ∀ tree ∈ old, tree.language.sameAs p.language = true → tree.root.All P)
    (h : p.parse limit host input old next = some parsed) : parsed.tree.root.All P := by
  rw [parse] at h
  obtain ⟨⟨root, status, s⟩, hRun, rfl⟩ := Option.map_eq_some_iff.mp h
  have hRoot : root.All P := by
    have hEnv : Lasting (SessionEnv.language ⟨p.language, host, p.options, next⟩) P := hP
    refine Session.Keeps.run hEnv (Session.keeps_start fun tree hTree => ?_) hRun
    obtain ⟨hTree, hSame⟩ := Option.filter_eq_some_iff.mp hTree
    exact hOld tree hTree hSame
  cases status with
  | complete =>
    have hBalancing : Lasting (Balancing.language ⟨p.language, fun id => decide (next ≤ id)⟩) P := hP
    exact hBalancing.balanced _ _ hRoot
  | cancelled => exact hRoot

end Reparse
