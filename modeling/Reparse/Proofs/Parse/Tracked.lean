import Reparse.Proofs.Parse.Steps
import Reparse.Proofs.Tree.Rows
/-!
# Where the scanner goes on

Nodes and stack entries record where the scanner was after its last token in them. What a stack records is what its last
leaf with such a state does, so the scanner is restored from there, for the next token as for those that are looked up
behind a lookahead.
-/
namespace Reparse

namespace Subtree

variable {info : NodeInfo} {children row : List Subtree}

/-- A node records of the scanner what its leaves in a row do. -/
structure Tracked (info : NodeInfo) (children : List Subtree) : Prop where
  any : info.hasScanned = (leaves (node info children)).any fun c => c.info.hasScanned
  last : info.scannerState = lastScannerState (leaves (node info children))

theorem tracked_leaf (h : info.hasScanned = false → info.scannerState = none) : (node info []).All Tracked := by
  refine .node ⟨?_, ?_⟩ (by simp)
  · simp [leaves]
  · rw [leaves, if_pos List.isEmpty_nil, lastScannerState_singleton]
    cases hScanned : info.hasScanned with
    | true => simp [hScanned]
    | false => simp [hScanned, h hScanned]

theorem Tracked.state_eq (h : Tracked info children) :
    (if info.hasScanned then info.scannerState else none) = info.scannerState := by
  cases hScanned : info.hasScanned with
  | true => rfl
  | false =>
    rw [h.last, lastScannerState_eq_none (h.any.symm.trans hScanned)]
    rfl

theorem tracked_leavesAmong (h : ∀ c ∈ row, c.All Tracked) :
    ((leavesAmong row).any fun c => c.info.hasScanned) = row.any (fun c => c.info.hasScanned) ∧
      lastScannerState (leavesAmong row) = lastScannerState row := by
  induction row with
  | nil => exact ⟨by simp [leavesAmong], by simp [leavesAmong]⟩
  | cons c rest ih =>
    obtain ⟨hAny, hLast⟩ := ih fun x hx => h x (List.mem_cons_of_mem _ hx)
    have hFirst := (h c List.mem_cons_self).here
    have hHere := hFirst.any
    have hState := hFirst.last
    rw [node_eta] at hHere hState
    constructor
    · rw [leavesAmong, List.any_append, List.any_cons, ← hHere, hAny]
    · rw [leavesAmong, ← List.singleton_append, lastScannerState_append, lastScannerState_append, hAny, hLast, ← hState,
        lastScannerState_singleton, hFirst.state_eq]

theorem tracked_row (h : ∀ c ∈ children, c.All Tracked)
    (hAny : info.hasScanned = children.any fun c => c.info.hasScanned)
    (hLast : info.scannerState = lastScannerState children) : (node info children).All Tracked := by
  rcases children with _ | ⟨c, rest⟩
  · exact tracked_leaf fun _ => hLast
  · obtain ⟨hLeaves, hLeavesLast⟩ := tracked_leavesAmong h
    refine .node ⟨?_, ?_⟩ h
    · rw [leaves_node (by simp), hLeaves, hAny]
    · rw [leaves_node (by simp), hLeavesLast, hLast]

end Subtree

namespace ParseStack

open Subtree

variable {s : ParseStack}

/-- Every entry records where the scanner was at its end. -/
inductive Tracked : ParseStack → Prop
  | nil : Tracked []
  | cons {entry : StackEntry} {rest : ParseStack} : Tracked rest → entry.subtree.All Subtree.Tracked →
    entry.scannerState = (if entry.subtree.info.hasScanned then entry.subtree.info.scannerState else rest.scannerState) →
    Tracked (entry :: rest)

theorem Tracked.push (h : s.Tracked) (state : StateId) {x : Subtree} (hx : x.All Subtree.Tracked) : (s.push state x).Tracked :=
  .cons h hx rfl

theorem Tracked.pushExtras (h : s.Tracked) {extras : List Subtree} (hExtras : ∀ x ∈ extras, x.All Subtree.Tracked) :
    (s.pushExtras extras).Tracked := by
  induction extras generalizing s with
  | nil => exact h
  | cons extra rest ih =>
    exact ih (h.push _ (hExtras extra List.mem_cons_self)) fun x hx => hExtras x (List.mem_cons_of_mem _ hx)

theorem Tracked.of_append {top : List StackEntry} (h : Tracked (top ++ s)) : s.Tracked := by
  induction top with
  | nil => exact h
  | cons _ _ ih =>
    cases h with
    | cons h _ _ => exact ih h

theorem Tracked.subtrees (h : s.Tracked) : ∀ x ∈ s.subtrees, x.All Subtree.Tracked := by
  induction h with
  | nil => simp
  | cons _ hHere _ ih =>
    intro x hx
    rw [subtrees_cons, List.mem_append, List.mem_singleton] at hx
    rcases hx with hx | rfl
    · exact ih x hx
    · exact hHere

theorem Tracked.scannerState_eq (h : s.Tracked) : s.scannerState = lastScannerState (leavesAmong s.subtrees) := by
  rw [(tracked_leavesAmong h.subtrees).2]
  induction h with
  | nil => rfl
  | @cons entry rest _ _ hState ih =>
    rw [scannerState, List.head?_cons, Option.bind_some, hState, subtrees_cons, lastScannerState_append,
      lastScannerState_singleton, ih]
    cases hHere : entry.subtree.info.hasScanned <;> simp [hHere]

end ParseStack

/-- A lookahead from an old tree. -/
def Lookahead.isReused : Lookahead → Bool
  | .reused _ => true
  | _ => false

namespace Session

open Subtree

variable {σ : Type} {env : SessionEnv σ} {Ok : σ → Prop} {s t : Session σ} {la : Lookahead} {leaf : Subtree} {nextId : NodeId}

/-- All that is at hand in a session without an old tree records what its leaves do of the scanner. -/
structure Tracked (s : Session σ) : Prop where
  stack : s.stack.Tracked
  skip : ∀ x, s.lastSkip = some x → x.All Subtree.Tracked
  reuse : s.reuse = none
  pending : ∀ la, s.pending = some la → la.isReused = false
  deferred : ∀ la, s.deferred = some la → la.isReused = false

theorem tracked_start (marks : LexMarks) (input : σ) (firstId : NodeId) : (start marks input none firstId).Tracked where
  stack := .nil
  skip x hx := by cases hx
  reuse := rfl
  pending la hla := by cases hla
  deferred la hla := by cases hla

/-! ## Stacks -/

theorem Tracked.reduce (h : s.Tracked) (id : ProductionId) (extent : Nat) : (s.reduce env id extent).Tracked := by
  obtain ⟨top, children, below, hStack, -, -, hReduce⟩ := reduce_eq env s id extent
  have hTracked := h.stack
  have hNodes := h.stack.subtrees
  rw [hStack] at hTracked hNodes
  simp only [ParseStack.subtrees_append, List.mem_append] at hNodes
  rw [hReduce]
  refine ⟨?_, h.skip, h.reuse, h.pending, h.deferred⟩
  apply ParseStack.Tracked.pushExtras
  · apply hTracked.of_append.of_append.push
    exact tracked_row (fun c hc => hNodes c (.inl (.inr hc))) rfl rfl
  · exact fun x hx => hNodes x (.inr hx)

theorem Tracked.pushError {top below : ParseStack} (h : s.Tracked) (hStack : s.stack = top ++ below)
    {children : List Subtree} (hChildren : ∀ c ∈ children, c.All Subtree.Tracked) (stats : ParseStats) (nextId : NodeId) :
    Tracked { s with
      stack := below.pushExtra (.errorNode env.language s.nextId children below.state)
      lastSkip := some (.errorNode env.language s.nextId children below.state)
      nextId, stats } := by
  have hNode : (errorNode env.language s.nextId children below.state).All Subtree.Tracked := tracked_row hChildren rfl rfl
  have hTracked := h.stack
  rw [hStack] at hTracked
  refine ⟨hTracked.of_append.push _ hNode, ?_, h.reuse, h.pending, h.deferred⟩
  rintro x ⟨⟩
  exact hNode

theorem Tracked.popStack (h : s.Tracked) (depth : Nat) : (s.popStack env depth).Tracked := by
  obtain ⟨top, below, hStack, -, hPop⟩ := popStack_eq env s depth
  have hNodes := h.stack.subtrees
  rw [hStack, ParseStack.subtrees_append] at hNodes
  rw [hPop]
  exact h.pushError hStack (fun c hc => hNodes c (List.mem_append_right _ hc)) _ _

theorem Tracked.skipLeaf (h : s.Tracked) (hLeaf : leaf.All Subtree.Tracked) : (s.skipLeaf env leaf).Tracked := by
  obtain ⟨top, below, children, hStack, hChildren, hSkip⟩ := skipLeaf_eq env s leaf
  rw [hSkip]
  refine h.pushError hStack (fun c hc => ?_) _ _
  rcases hChildren c hc with rfl | hc | ⟨x, hx, hc⟩
  · exact hLeaf
  · exact h.stack.subtrees c hc
  · exact (h.skip x hx).child c hc

/-! ## Steps -/

theorem Stands.tracked (h : Stands env s la leaf nextId) (hla : la.isReused = false) : leaf.All Subtree.Tracked := by
  cases h with
  | token t => exact tracked_leaf (by simp)
  | missing symbol => exact tracked_leaf fun _ => rfl
  | shared => cases hla

theorem Leaves.tracked (h : Leaves env s la leaf nextId) (hla : la.isReused = false) : leaf.All Subtree.Tracked := by
  cases h with
  | stands h => exact h.tracked hla
  | restated => cases hla

theorem Takes.tracked (h : s.Tracked) {next : Option Lookahead} {id : Option ProductionId} (hTakes : Takes env s next id t) :
    t.Tracked ∧ ∀ la, next = some la → la.isReused = false := by
  have hOld {c : ReuseCursor} (hReuse : s.reuse = some c) : False := by
    rw [h.reuse] at hReuse
    cases hReuse
  cases hTakes with
  | pending hPending =>
    refine ⟨⟨h.stack, h.skip, h.reuse, by simp, h.deferred⟩, ?_⟩
    rintro la ⟨⟩
    exact h.pending _ hPending
  | deferred _ hDeferred =>
    refine ⟨⟨h.stack, h.skip, h.reuse, h.pending, by simp⟩, ?_⟩
    rintro la ⟨⟩
    exact h.deferred _ hDeferred
  | reused _ _ hReuse => exact (hOld hReuse).elim
  | reduced _ _ hReuse => exact (hOld hReuse).elim
  | lexed _ _ hMoves =>
    rw [h.reuse] at hMoves
    cases hMoves
    refine ⟨⟨h.stack, h.skip, rfl, h.pending, h.deferred⟩, ?_⟩
    rintro la ⟨⟩
    rfl

theorem Acts.tracked (h : s.Tracked) (hla : la.isReused = false) {id : Option ProductionId}
    (hActs : Acts env Ok s la id (.running t)) : t.Tracked := by
  have hWaits (a : Lookahead) (ha : some la = some a) : a.isReused = false := Option.some.inj ha ▸ hla
  cases hActs with
  | interior => cases hla
  | shift _ _ hLeaves => exact ⟨h.stack.push _ (hLeaves.tracked hla), h.skip, h.reuse, h.pending, h.deferred⟩
  | @reduce _ production =>
    have hReduced : (s.reduce env production (la.extent s.position)).Tracked := h.reduce _ _
    exact ⟨hReduced.stack, hReduced.skip, hReduced.reuse, hWaits, hReduced.deferred⟩
  | extra _ _ hStands => exact ⟨h.stack.push _ (hStands.tracked hla), h.skip, h.reuse, h.pending, h.deferred⟩
  | dropped => exact h
  | insert _ _ hAsks =>
    cases hAsks
    refine ⟨h.stack, h.skip, h.reuse, ?_, hWaits⟩
    rintro a ⟨⟩
    rfl
  | @pop _ _ depth _ _ hAsks =>
    cases hAsks with
    | @mk lex stats =>
      have hAsked : Tracked { s with lex, stats, recoveries := some (s.position, s.attempts) } :=
        ⟨h.stack, h.skip, h.reuse, h.pending, h.deferred⟩
      have hPopped : Tracked (Session.popStack env _ depth) := hAsked.popStack depth
      exact ⟨hPopped.stack, hPopped.skip, hPopped.reuse, hWaits, hPopped.deferred⟩
  | skipError hAsks =>
    cases hAsks
    exact ⟨h.stack.push _ (tracked_leaf fun _ => rfl), by simp, h.reuse, h.pending, h.deferred⟩
  | skip _ _ hAsks _ hStands =>
    cases hAsks
    refine Tracked.skipLeaf ?_ (hStands.tracked hla)
    exact ⟨h.stack, h.skip, h.reuse, h.pending, h.deferred⟩
  | wrap hAsks =>
    cases hAsks
    have hNode : (errorNode env.language s.nextId s.stack.subtrees 0).All Subtree.Tracked := tracked_row h.stack.subtrees rfl rfl
    exact ⟨ParseStack.Tracked.nil.push _ hNode, by simp, h.reuse, h.pending, h.deferred⟩

theorem Tracked.next (h : s.Tracked) (hNext : s.next env = .running t) : t.Tracked := by
  have hStarts : Tracked { s with steps := s.steps + 1 } := ⟨h.stack, h.skip, h.reuse, h.pending, h.deferred⟩
  have hSteps := steps_next env.keeps_true s
  rw [hNext] at hSteps
  generalize s.reduction? env = id at hSteps
  cases hSteps with
  | reduced hTakes => exact (hTakes.tracked hStarts).1
  | acted hTakes hActs =>
    obtain ⟨hTaken, hLookahead⟩ := hTakes.tracked hStarts
    exact hActs.tracked hTaken (hLookahead _ rfl)

section Reached

variable {marks : LexMarks} {input : σ} {firstId : NodeId} (h : Reaches env (start marks input none firstId) s)
include h

theorem tracked_of_reaches : s.Tracked :=
  h.invariant (tracked_start marks input firstId) fun _ _ hs hNext => hs.next hNext

/-- In a session without an old tree the scanner is restored to what the last leaf on the stack recorded of it, for the
next token and for those behind a lookahead, whatever the lookahead recorded. -/
theorem lexAt_of_reaches {r : Session σ} (hStack : r.stack = s.stack) (position : Nat) (mode : LexModeId) :
    (r.lexAt env position mode).1 = (env.language.lexWith env.language.scanner env.host.source position mode
      (lastScannerState (leavesAmong s.stack.subtrees)) r.lex).1 := by
  rw [lexAt, hStack, (tracked_of_reaches h).stack.scannerState_eq]

theorem nextLookahead_of_reaches (hPending : s.pending = none) (hDeferred : s.deferred = none) :
    (s.nextLookahead env).1 = some (.token (env.language.lexWith env.language.scanner env.host.source s.position
      (env.language.lexModeId s.state) (lastScannerState (leavesAmong s.stack.subtrees)) s.lex).1) := by
  have hHere : s.reuseHere env = (.none, s) := by rw [reuseHere, (tracked_of_reaches h).reuse]
  rw [nextLookahead, hPending, hDeferred, hHere, ← lexAt_of_reaches h rfl]

end Reached

end Session
end Reparse
