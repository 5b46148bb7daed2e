import Reparse.Parse.Parser
import Reparse.Proofs.Parse.Reuse
import Reparse.Proofs.Parse.Stack
import Reparse.Proofs.Parse.Tables
/-!
# What every step preserves

The stack of a session covers the text up to the position: no step loses or doubles a byte. `Session.Covers` is what
all steps preserve. A root may be put together from what lies around the start symbol's node only because no
token of some size lies below an accepting state, which `ParseStack.Clear` says.
-/
namespace Reparse

open Subtree

variable {σ : Type}

/-! ## Stacks -/

/-- A part of the structure that has a size and no children. -/
def Subtree.IsLone (s : Subtree) : Prop := s.isExtra = false ∧ s.children = [] ∧ 0 < s.size

namespace ParseStack

/-- There is no lone token at or below a state that may accept. -/
inductive Clear (t : Table) : ParseStack → Prop
  | nil : Clear t []
  | cons {entry : StackEntry} {rest : ParseStack} : Clear t rest →
    (t.Opens entry.state → ∀ e ∈ entry :: rest, ¬e.subtree.IsLone) → Clear t (entry :: rest)

/-- A stack as a session has it. -/
structure Regular (l : Language) (first next : NodeId) (s : ParseStack) : Prop where
  placed : s.Placed
  clear : s.Clear l.table
  nodes : ∀ e ∈ s, e.subtree.All (Grown l first next)

variable {t : Table} {l : Language} {first next : NodeId} {s : ParseStack} {subtree : Subtree}

theorem Clear.of_opens (h : s.Clear t) (hOpens : t.Opens s.state) : ∀ e ∈ s, ¬e.subtree.IsLone := by
  cases h with
  | nil => simp
  | cons _ hEntry => exact hEntry hOpens

theorem Clear.of_append {top : List StackEntry} (h : Clear t (top ++ s)) : s.Clear t := by
  induction top with
  | nil => exact h
  | cons _ _ ih =>
    cases h with
    | cons h _ => exact ih h

theorem Clear.push (h : s.Clear t) {q : StateId} (hOpens : t.Opens q → t.Opens s.state ∧ ¬subtree.IsLone) :
    (s.push q subtree).Clear t := by
  refine .cons h fun hq e he => ?_
  obtain ⟨hState, hLone⟩ := hOpens hq
  rcases List.mem_cons.mp he with rfl | he
  · exact hLone
  · exact h.of_opens hState e he

namespace Regular

theorem nil : Regular l first next [] := ⟨.nil, .nil, by simp⟩

variable (h : s.Regular l first next)
include h

theorem later {more : NodeId} (hNext : next ≤ more) : s.Regular l first more :=
  ⟨h.placed, h.clear, fun e he => (h.nodes e he).later hNext⟩

theorem push {q : StateId} (hNodes : subtree.All (Grown l first next))
    (hOpens : l.table.Opens q → l.table.Opens s.state ∧ ¬subtree.IsLone) : (s.push q subtree).Regular l first next where
  placed := h.placed.push q subtree
  clear := h.clear.push hOpens
  nodes e he := by
    rcases List.mem_cons.mp he with rfl | he
    · exact hNodes
    · exact h.nodes e he

theorem pushExtra (hNodes : subtree.All (Grown l first next)) (hExtra : subtree.isExtra = true) :
    (s.pushExtra subtree).Regular l first next :=
  h.push hNodes fun hOpens => ⟨hOpens, fun ⟨hNot, _⟩ => Bool.false_ne_true (hNot.symm.trans hExtra)⟩

omit h in
theorem pushExtras {extras : List Subtree} (h : s.Regular l first next)
    (hNodes : ∀ x ∈ extras, x.All (Grown l first next) ∧ x.isExtra = true) :
    (s.pushExtras extras).Regular l first next := by
  induction extras generalizing s with
  | nil => exact h
  | cons extra rest ih =>
    obtain ⟨hNode, hExtra⟩ := hNodes extra List.mem_cons_self
    exact ih (h.pushExtra hNode hExtra) fun x hx => hNodes x (List.mem_cons_of_mem _ hx)

omit h in
theorem of_append {top : List StackEntry} (h : Regular l first next (top ++ s)) : s.Regular l first next :=
  ⟨h.placed.of_append, h.clear.of_append, fun e he => h.nodes e (List.mem_append_right _ he)⟩

omit h in
theorem tail {entry : StackEntry} (h : Regular l first next (entry :: s)) : s.Regular l first next := by
  have hAppend : Regular l first next ([entry] ++ s) := h
  exact hAppend.of_append

theorem subtrees : ∀ x ∈ s.subtrees, x.All (Grown l first next) := by
  intro x hx
  obtain ⟨e, he, rfl⟩ := mem_subtrees.mp hx
  exact h.nodes e he

end Regular

theorem state_append (top rest : List StackEntry) (h : ∀ e ∈ top, e.state = ParseStack.state rest) :
    ParseStack.state (top ++ rest) = ParseStack.state rest := by
  cases top with
  | nil => rfl
  | cons e _ => exact h e List.mem_cons_self

end ParseStack

/-! ## Lookaheads -/

namespace Lookahead

def size : Lookahead → Nat
  | token t => t.size
  | reused s => s.size
  | missing _ => 0

theorem size_of_isMissing {la : Lookahead} (hMissing : la.isMissing = true) : la.size = 0 := by
  cases la with
  | missing symbol => rfl
  | token t => cases hMissing
  | reused s => cases hMissing

/-- The lookahead belongs at the position: a token that was lexed there, or an untouched part of the old tree. -/
def Fits (env : SessionEnv σ) (bytes : List UInt8) (room position : Nat) : Lookahead → Prop
  | token t => t.Fits env.language bytes position ∧ (env.language.scanner = none → t.Sized bytes)
  | reused s => s.All (Former env.firstId) ∧ s.hasChanges = false ∧ 0 < s.size ∧ position + s.size ≤ max bytes.length room
  | missing symbol => env.language.table.IsToken symbol

variable {env : SessionEnv σ} {bytes : List UInt8} {room position : Nat} {la : Lookahead}

theorem Fits.le (h : la.Fits env bytes room position) (hPosition : position ≤ max bytes.length room) :
    position + la.size ≤ max bytes.length room := by
  cases la with
  | token t => exact Nat.le_trans h.1.size_le (Nat.max_le.mpr ⟨Nat.le_max_left _ _, hPosition⟩)
  | reused s => exact h.2.2.2
  | missing symbol => exact hPosition

end Lookahead

/-! ## Sessions -/

namespace Session

/-- A subtree of the old tree that ends within the text. -/
def Old (first : NodeId) (bytes : List UInt8) (room start : Nat) (s : Subtree) : Prop :=
  s.All (Former first) ∧ start + s.size ≤ max bytes.length room

theorem Old.below {first : NodeId} {bytes : List UInt8} {room start : Nat} {s : Subtree} (h : Old first bytes room start s) :
    ∀ entry ∈ s.positioned start, Old first bytes room entry.1 entry.2 := by
  obtain ⟨hFormer, hEnd⟩ := h
  have hTiled : Tiled s.info s.children := hFormer.here.toTiled
  intro entry hEntry
  rw [hTiled.positioned_eq] at hEntry
  have hMem := mem_of_mem_laid hEntry
  have hWithin := (within_of_mem_laid hEntry).2
  have hSize : s.size = totalOf size s.children := hTiled.size (List.ne_nil_of_mem hMem)
  exact ⟨hFormer.child _ hMem, by omega⟩

/-- The error of the last skip can be joined: it is the one entry of its number. -/
structure Joins (first next : NodeId) (stack : ParseStack) (p : Subtree) : Prop where
  first_le : first ≤ p.id
  id_lt : p.id < next
  size : p.size = totalOf Subtree.size p.children
  unique : ∀ e ∈ stack, e.subtree.id = p.id → e.subtree = p

/-- What holds at any time, the waiting lookaheads apart. -/
structure Grounded (env : SessionEnv σ) (Ok : σ → Prop) (bytes : List UInt8) (room : Nat) (s : Session σ) : Prop where
  input : Ok s.lex.input
  ids : env.firstId ≤ s.nextId
  stack : s.stack.Regular env.language env.firstId s.nextId
  position : s.position ≤ max bytes.length room
  skip : ∀ p, s.lastSkip = some p → Joins env.firstId s.nextId s.stack p
  reuse : ∀ c, s.reuse = some c → c.Ahead (Old env.firstId bytes room)

/-- What every step preserves. The waiting lookaheads belong at the position; one is deferred only behind an
inserted token. -/
structure Covers (env : SessionEnv σ) (Ok : σ → Prop) (bytes : List UInt8) (room : Nat) (s : Session σ) : Prop
    extends Grounded env Ok bytes room s where
  pending : ∀ la, s.pending = some la → la.Fits env bytes room s.position
  deferred : ∀ la, s.deferred = some la → la.Fits env bytes room s.position
  behind : s.deferred.isSome = true → ∀ la, s.pending = some la → la.isMissing = true

/-- A session that holds a lookahead. -/
structure Holds (env : SessionEnv σ) (Ok : σ → Prop) (bytes : List UInt8) (room : Nat) (s : Session σ) (la : Lookahead) : Prop
    extends Grounded env Ok bytes room s where
  fits : la.Fits env bytes room s.position
  pending : s.pending = none
  deferred : ∀ d, s.deferred = some d → d.Fits env bytes room s.position
  behind : s.deferred.isSome = true → la.isMissing = true

variable {env : SessionEnv σ} {Ok : σ → Prop} {bytes : List UInt8} {room : Nat} {s t : Session σ} {la : Lookahead} {g : Grammar}

/-- From one session to another one whose stack has old and new nodes only. -/
theorem Grounded.restack (h : Grounded env Ok bytes room s) (hInput : Ok t.lex.input) (hNext : s.nextId ≤ t.nextId)
    (hStack : t.stack.Regular env.language env.firstId t.nextId) (hPosition : t.position ≤ max bytes.length room)
    (hSkip : t.lastSkip = none ∨ t.lastSkip = s.lastSkip ∧ ∀ x ∈ t.stack.subtrees,
      x ∈ s.stack.subtrees ∨ x.id < env.firstId ∨ s.nextId ≤ x.id)
    (hReuse : t.reuse = s.reuse) : Grounded env Ok bytes room t where
  input := hInput
  ids := Nat.le_trans h.ids hNext
  stack := hStack
  position := hPosition
  skip p hp := by
    rcases hSkip with hNone | ⟨hSame, hOrigin⟩
    · rw [hNone] at hp
      cases hp
    · obtain ⟨hFirst, hLt, hSize, hUnique⟩ := h.skip p (hSame ▸ hp)
      refine ⟨hFirst, Nat.lt_of_lt_of_le hLt hNext, hSize, fun e he hId => ?_⟩
      rcases hOrigin e.subtree (ParseStack.mem_subtrees.mpr ⟨e, he, rfl⟩) with hOld | hBefore | hAfter
      · obtain ⟨e', he', hEq⟩ := ParseStack.mem_subtrees.mp hOld
        rw [← hEq] at hId ⊢
        exact hUnique e' he' hId
      · exact absurd (hId ▸ hBefore) (Nat.not_lt.mpr hFirst)
      · exact absurd hLt (Nat.not_lt.mpr (hId ▸ hAfter))
  reuse c hc := h.reuse c (hReuse ▸ hc)

/-- One more entry, of an old node or a new one. -/
theorem Grounded.push (h : Grounded env Ok bytes room s) {q : StateId} {x : Subtree}
    (hStack : t.stack = s.stack.push q x) (hNodes : x.All (Grown env.language env.firstId t.nextId))
    (hOpens : env.language.table.Opens q → env.language.table.Opens s.state ∧ ¬x.IsLone)
    (hOrigin : x.id < env.firstId ∨ s.nextId ≤ x.id) (hPosition : s.position + x.size ≤ max bytes.length room)
    (hInput : Ok t.lex.input) (hNext : s.nextId ≤ t.nextId) (hSkip : t.lastSkip = none ∨ t.lastSkip = s.lastSkip)
    (hReuse : t.reuse = s.reuse) : Grounded env Ok bytes room t := by
  apply h.restack hInput hNext
  · rw [hStack]
    exact (h.stack.later hNext).push hNodes hOpens
  · rw [Session.position, hStack]
    exact hPosition
  · refine hSkip.imp_right fun hSame => ⟨hSame, fun y hy => ?_⟩
    rw [hStack, ParseStack.subtrees_push] at hy
    rcases List.mem_append.mp hy with hy | hy
    · exact .inl hy
    · rw [List.mem_singleton.mp hy]
      exact .inr hOrigin
  · exact hReuse

/-- Entries are put into an error, which the next skip may join. -/
theorem Grounded.bury (h : Grounded env Ok bytes room s) {below : ParseStack} {children : List Subtree}
    (hStack : t.stack = below.pushExtra (errorNode env.language s.nextId children below.state))
    (hBelow : below.Regular env.language env.firstId s.nextId)
    (hChildren : ∀ x ∈ children, x.All (Grown env.language env.firstId s.nextId))
    (hPosition : below.position + totalOf size children ≤ max bytes.length room)
    (hInput : Ok t.lex.input) (hNext : t.nextId = s.nextId + 1)
    (hSkip : ∀ p, t.lastSkip = some p → p = errorNode env.language s.nextId children below.state)
    (hReuse : t.reuse = s.reuse) : Grounded env Ok bytes room t where
  input := hInput
  ids := by
    rw [hNext]
    exact Nat.le_succ_of_le h.ids
  stack := by
    rw [hStack, hNext]
    exact (hBelow.later (Nat.le_succ _)).pushExtra (all_grown_errorNode _ hChildren) rfl
  position := by
    rw [Session.position, hStack]
    exact hPosition
  skip p hp := by
    obtain rfl := hSkip p hp
    rw [hStack, hNext]
    refine ⟨h.ids, Nat.lt_succ_self _, rfl, fun e he hId => ?_⟩
    rcases List.mem_cons.mp he with rfl | he
    · rfl
    · exact absurd ((hBelow.nodes e he).here.id_lt) (Nat.not_lt.mpr (Nat.le_of_eq hId.symm))
  reuse c hc := h.reuse c (hReuse ▸ hc)

theorem Grounded.pop (h : Grounded env Ok bytes room s) (depth : Nat) :
    Grounded env Ok bytes room (s.popStack env depth) ∧ (s.popStack env depth).position = s.position ∧
      (s.popStack env depth).deferred = s.deferred := by
  obtain ⟨top, below, hStack, -, hPop⟩ := popStack_eq env s depth
  have hRegular := h.stack
  have hPlaced : s.position = _ := hRegular.placed.position_eq
  rw [hStack] at hRegular hPlaced
  have hBelow : below.Regular env.language env.firstId s.nextId := hRegular.of_append
  have hTotal : below.position + totalOf size (ParseStack.subtrees top) = s.position := by
    rw [hPlaced, ParseStack.subtrees_append, totalOf_append, hBelow.placed.position_eq]
  rw [hPop]
  refine ⟨h.bury rfl hBelow (fun x hx => hRegular.subtrees x (by simp [hx])) ?_ h.input rfl
    (fun p hp => (Option.some.inj hp).symm) rfl, hTotal, rfl⟩
  rw [hTotal]
  exact h.position

theorem Grounded.covers (h : Grounded env Ok bytes room t) (hPending : t.pending = none)
    (hDeferred : ∀ d, t.deferred = some d → d.Fits env bytes room t.position) : Covers env Ok bytes room t where
  toGrounded := h
  pending := by simp [hPending]
  deferred := hDeferred
  behind := by simp [hPending]

theorem covers_start {marks : LexMarks} {input : σ} {old : Option Tree} (hInput : Ok input)
    (hOld : ∀ tree ∈ old, tree.root.All (Former env.firstId) ∧ tree.size ≤ max bytes.length room) :
    Covers env Ok bytes room (.start marks input old env.firstId) where
  input := hInput
  ids := Nat.le_refl _
  stack := .nil
  position := Nat.zero_le _
  skip := by simp [start]
  reuse c hc := by
    obtain ⟨tree, hTree, rfl⟩ := Option.map_eq_some_iff.mp hc
    obtain ⟨hFormer, hSize⟩ := hOld tree hTree
    exact ReuseCursor.ahead_ofTree ⟨hFormer, by rwa [Nat.zero_add]⟩
  pending := by simp [start]
  deferred := by simp [start]
  behind := by simp [start]

/-! ## Reductions and lookaheads -/

theorem Grounded.reduce (hBuilt : env.language.BuiltFrom g) (h : Grounded env Ok bytes room s) (id : ProductionId)
    (extent : Nat) : Grounded env Ok bytes room (s.reduce env id extent) ∧ (s.reduce env id extent).position = s.position := by
  obtain ⟨top, children, below, hStack, hExtras, _, hReduce⟩ := reduce_eq env s id extent
  have hRegular := h.stack
  have hPlaced := hRegular.placed.position_eq
  rw [hStack] at hRegular hPlaced
  have hChildren : ∀ x ∈ ParseStack.subtrees children, x.All (Grown env.language env.firstId s.nextId) := fun x hx =>
    hRegular.subtrees x (by simp [hx])
  have hNode := (all_grown_ofChildren id (ParseStack.state below) (hBuilt.lhs_ne_eof id) hChildren)
    |>.grown_withLookahead (extent - (ParseStack.position below + totalOf size (ParseStack.subtrees children)))
  have hBelow : ParseStack.Regular env.language env.firstId (s.nextId + 1) below :=
    (hRegular.of_append.of_append).later (Nat.le_succ _)
  have hPushed := hBelow.push hNode (q := (env.language.table.goto (ParseStack.state below)
      (env.language.table.production id).lhs).getD (ParseStack.state below)) fun hOpens =>
    ⟨hBuilt.opens_of_getD hOpens, fun ⟨_, hNil, hSize⟩ => by
      rw [size_withLookahead, size_ofChildren] at hSize
      rw [Subtree.withLookahead, children_update, children_ofChildren] at hNil
      rw [hNil] at hSize
      exact absurd hSize (Nat.lt_irrefl 0)⟩
  have hAll := hPushed.pushExtras fun x (hx : x ∈ ParseStack.subtrees top) => by
    obtain ⟨e, he, rfl⟩ := ParseStack.mem_subtrees.mp hx
    exact ⟨(hRegular.nodes e (List.mem_append_left _ he)).later (Nat.le_succ _), hExtras e he⟩
  have hSame : (s.reduce env id extent).position = s.position := by
    rw [Session.position, Session.position, hReduce, hAll.placed.position_eq, hStack, hPlaced]
    simp
  refine ⟨?_, hSame⟩
  apply h.restack
  · rw [hReduce]
    exact h.input
  · rw [hReduce]
    exact Nat.le_succ _
  · rw [hReduce]
    exact hAll
  · rw [hSame]
    exact h.position
  · rw [hReduce]
    refine .inr ⟨rfl, fun x hx => ?_⟩
    simp only [ParseStack.subtrees_pushExtras, ParseStack.subtrees_push, List.mem_append, List.mem_singleton] at hx
    rw [hStack]
    simp only [ParseStack.subtrees_append, List.mem_append]
    rcases hx with (hx | rfl) | hx
    · exact .inl (.inl (.inl hx))
    · exact .inr (.inr (Nat.le_refl _))
    · exact .inl (.inr hx)
  · rw [hReduce]

/-- The lookahead that a step takes belongs at the position. -/
theorem Covers.holds (hServes : env.host.Serves Ok bytes) (hBuilt : env.language.BuiltFrom g)
    (h : Covers env Ok bytes room s) {la : Option Lookahead} {id : Option ProductionId} (hTakes : Takes env s la id t) :
    (∀ a, la = some a → Holds env Ok bytes room t a) ∧ (la = none → Covers env Ok bytes room t) := by
  cases hTakes with
  | @pending la hPending =>
    refine ⟨fun a ha => ?_, (by simp)⟩
    obtain rfl := Option.some.inj ha
    exact ⟨⟨h.input, h.ids, h.stack, h.position, h.skip, h.reuse⟩, h.pending la hPending, rfl, h.deferred,
      fun hDeferred => h.behind hDeferred la hPending⟩
  | @deferred la hPending hDeferred =>
    refine ⟨fun a ha => ?_, (by simp)⟩
    obtain rfl := Option.some.inj ha
    exact ⟨⟨h.input, h.ids, h.stack, h.position, h.skip, h.reuse⟩, h.deferred la hDeferred, hPending, by simp, by simp⟩
  | @reused c c' subtree stats hPending hDeferred hReuse hFinds =>
    obtain ⟨hAhead, hFound⟩ := hFinds.ahead (fun _ _ => Old.below) (h.reuse c hReuse)
    obtain ⟨⟨hFormer, hEnd⟩, hChanges, hSize⟩ := hFound subtree rfl
    refine ⟨fun a ha => ?_, (by simp)⟩
    obtain rfl := Option.some.inj ha
    refine ⟨⟨h.input, h.ids, h.stack, h.position, h.skip, fun d hd => ?_⟩, ⟨hFormer, hChanges, hSize, hEnd⟩, hPending,
      h.deferred, by simp [hDeferred]⟩
    obtain rfl := Option.some.inj hd
    exact hAhead
  | @reduced c c' id extent hPending hDeferred hReuse hFinds =>
    refine ⟨by simp, fun _ => ?_⟩
    have hGround : Grounded env Ok bytes room { s with reuse := some c' } := by
      refine ⟨h.input, h.ids, h.stack, h.position, h.skip, fun d hd => ?_⟩
      obtain rfl := Option.some.inj hd
      exact (hFinds.ahead (fun _ _ => Old.below) (h.reuse c hReuse)).1
    obtain ⟨hReduced, _⟩ := hGround.reduce hBuilt id extent
    exact hReduced.covers hPending fun d hd => absurd (hDeferred.symm.trans hd) (Option.some_ne_none d).symm
  | @lexed reuse lex stats token hPending hDeferred hReuse hLex =>
    refine ⟨fun a ha => ?_, (by simp)⟩
    obtain rfl := Option.some.inj ha
    obtain ⟨hFits, hInput⟩ := hBuilt.lexWith_fits hServes.toServes env.language.scanner s.position
      (env.language.lexModeId s.state) s.stack.scannerState h.input
    rw [hLex] at hFits hInput
    refine ⟨⟨hInput, h.ids, h.stack, h.position, h.skip, ReuseCursor.ahead_of_rel (fun _ _ => Old.below) h.reuse hReuse⟩,
      ⟨hFits, fun hNone => ?_⟩, hPending, h.deferred, by simp [hDeferred]⟩
    rw [hNone] at hLex
    have hSized := hBuilt.lexWith_sized hServes.toServes s.position (env.language.lexModeId s.state) s.stack.scannerState
      h.input
    rwa [hLex] at hSized

/-! ## Actions -/

/-- What stands for a lookahead is a node of the session or of the old tree. -/
theorem Stands.grown {leaf : Subtree} {nextId : NodeId} (h : Stands env s la leaf nextId)
    (hFits : la.Fits env bytes room s.position) (hIds : env.firstId ≤ s.nextId) (hEof : la.symbol ≠ .eof) :
    leaf.All (Grown env.language env.firstId nextId) ∧ leaf.size = la.size ∧ s.nextId ≤ nextId ∧
      (leaf.id < env.firstId ∨ s.nextId ≤ leaf.id) := by
  cases h with
  | token t =>
    exact ⟨all_grown_token s.state hEof hFits.1.terminal, rfl, Nat.le_succ _, .inr (Nat.le_refl _)⟩
  | missing symbol => exact ⟨all_grown_missingLeaf s.state hEof, rfl, Nat.le_succ _, .inr (Nat.le_refl _)⟩
  | shared =>
    obtain ⟨hFormer, hChanges, _, _⟩ := hFits
    exact ⟨hFormer.grown_of_former hChanges hIds, rfl, Nat.le_refl _, .inl hFormer.here.id_lt⟩

theorem Leaves.grown {leaf : Subtree} {nextId : NodeId} (h : Leaves env s la leaf nextId)
    (hFits : la.Fits env bytes room s.position) (hIds : env.firstId ≤ s.nextId) (hEof : la.symbol ≠ .eof)
    (hTerminal : env.language.isTerminal la.symbol = true) :
    leaf.All (Grown env.language env.firstId nextId) ∧ leaf.size = la.size ∧ s.nextId ≤ nextId ∧
      (leaf.id < env.firstId ∨ s.nextId ≤ leaf.id) := by
  cases h with
  | stands h => exact h.grown hFits hIds hEof
  | restated leaf =>
    obtain ⟨hFormer, hChanges, _, _⟩ := hFits
    have hShared := hFormer.grown_of_former (l := env.language) hChanges hIds
    refine ⟨?_, rfl, Nat.le_succ _, .inr (Nat.le_refl _)⟩
    apply (hShared.later (Nat.le_succ _)).update
    exact ⟨hShared.here.toSound.congr rfl rfl rfl (Nat.le_refl _), Nat.lt_succ_self _, hEof, fun _ _ => .inr hTerminal⟩

/-- The root is over the whole text, and over no more than that if there is no larger old tree; its nodes are those of
a session. Where the session was stopped, only a rest below 2^32 bytes is sure to be covered. -/
structure Whole (l : Language) (first : NodeId) (bytes : List UInt8) (room : Nat) (status : ParseStatus) (next : NodeId)
    (root : Subtree) : Prop where
  nodes : root.All (Grown l first next)
  length_le : (status = .cancelled → bytes.length < 2 ^ 32) → bytes.length ≤ root.size
  size_le : root.size ≤ max bytes.length room
  first_le : first ≤ next

theorem Grounded.whole (h : Grounded env Ok bytes room s) (hEnd : bytes.length ≤ s.position) {root : Subtree}
    {status : ParseStatus} {next : NodeId} (hNodes : root.All (Grown env.language env.firstId next))
    (hSize : root.size = s.position) (hNext : s.nextId ≤ next) : Whole env.language env.firstId bytes room status next root :=
  ⟨hNodes, fun _ => by rwa [hSize], by rw [hSize]; exact h.position, Nat.le_trans h.ids hNext⟩

/-- The end of the input is found when all of it is on the stack. -/
theorem length_le_of_eof (hFits : la.Fits env bytes room s.position) (hEof : la.symbol = .eof) :
    bytes.length ≤ s.position := by
  cases la with
  | token t => exact hFits.1.eof hEof
  | reused subtree => exact absurd hEof hFits.1.here.ne_eof
  | missing symbol => exact absurd hEof hFits.2

/-- The extras around the start symbol's node become its children; that it is no token of some size keeps the
text together. -/
theorem Grounded.accept (hBuilt : env.language.BuiltFrom g) (h : Grounded env Ok bytes room s)
    (hOpens : env.language.table.Opens s.state) (hEnd : bytes.length ≤ s.position) :
    Whole env.language env.firstId bytes room .complete (s.accept env).2.nextId (s.accept env).1 := by
  have hNodes := h.stack.subtrees
  have hTotal : totalOf size s.stack.subtrees = s.position := by
    rw [Session.position, h.stack.placed.position_eq]
  have hLone : ∀ x ∈ s.stack.subtrees, ¬x.IsLone := fun x hx => by
    obtain ⟨e, he, rfl⟩ := ParseStack.mem_subtrees.mp hx
    exact h.stack.clear.of_opens hOpens e he
  have hRoots := roots_accept env s
  generalize s.accept env = result at hRoots ⊢
  cases hRoots with
  | extras => exact h.whole hEnd (all_grown_ofChildren noProduction 0 hBuilt.start_ne_eof hNodes) hTotal (Nat.le_succ _)
  | @alone root hStack =>
    rw [hStack] at hNodes hTotal
    exact h.whole hEnd (hNodes root List.mem_cons_self) (by simpa using hTotal) (Nat.le_refl _)
  | @wrapped leading trailing root hStack _ hExtra =>
    rw [hStack] at hNodes hTotal hLone
    have hRoot := hNodes root (by simp)
    have hSize : root.size = totalOf size root.children := by
      by_cases hNil : root.children = []
      · have hNot : ¬0 < root.size := fun hPos => hLone root (by simp) ⟨hExtra, hNil, hPos⟩
        rw [hNil, totalOf_nil]
        omega
      · exact hRoot.here.size hNil
    refine h.whole hEnd (all_grown_ofChildren root.info.production root.info.state hRoot.here.ne_eof fun x hx => ?_) ?_
      (Nat.le_succ _)
    · simp only [List.mem_append] at hx
      rcases hx with (hx | hx) | hx
      · exact hNodes x (by simp [hx])
      · exact hRoot.child x hx
      · exact hNodes x (by simp [hx])
    · rw [← hTotal]
      simp [hSize, makeNode]

/-- A session that is stopped covers the rest of the text by an error. -/
theorem Grounded.cancelled (hServes : env.host.Serves Ok bytes) (hBuilt : env.language.BuiltFrom g)
    (h : Grounded env Ok bytes room s) :
    Whole env.language env.firstId bytes room .cancelled (s.cancelledRoot env).2.nextId (s.cancelledRoot env).1 := by
  have hStop : (env.host.source.endFrom s.position s.lex.input).1 = max bytes.length s.position :=
    (hServes.toServes.endFrom_eq h.input).1
  have hRest (left : Nat) : (errorLeaf s.nextId left 0 s.state errorLexMode).All
      (Grown env.language env.firstId (s.nextId + 1)) := all_grown_errorLeaf s.state
  have hPlaced := h.stack.placed.position_eq
  have hPosition := h.position
  have hLeft : ((max bytes.length s.position).toUInt32 - s.position.toUInt32).toNat =
      narrow (max bytes.length s.position - s.position) := toNat_sub_toUInt32 (Nat.le_max_right _ _)
  have hSize : (s.cancelledRoot env).1.size = s.position + narrow (max bytes.length s.position - s.position) := by
    rw [cancelledRoot, size_ofChildren, totalOf_append, totalOf_cons, totalOf_nil, ← hPlaced, hStop, ← hLeft]
    rfl
  have hLe := narrow_le (max bytes.length s.position - s.position)
  refine ⟨?_, fun hShort => ?_, by omega, Nat.le_succ_of_le (Nat.le_succ_of_le h.ids)⟩
  · rw [cancelledRoot]
    refine all_grown_ofChildren noProduction 0 hBuilt.start_ne_eof fun x hx => ?_
    rcases List.mem_append.mp hx with hx | hx
    · exact (h.stack.subtrees x hx).later (Nat.le_succ _)
    · rw [List.mem_singleton.mp hx]
      exact hRest _
  · have hBound := hShort rfl
    rw [narrow_of_lt (by omega)] at hSize
    omega

/-- What holds after a step. -/
def CoversAfter (env : SessionEnv σ) (Ok : σ → Prop) (bytes : List UInt8) (room : Nat) : Progress σ → Prop
  | .running s => Session.Covers env Ok bytes room s
  | .finished root status s => Whole env.language env.firstId bytes room status s.nextId root

theorem Holds.asks (h : Holds env Ok bytes room s la) (hAsks : Asks Ok s t) : Holds env Ok bytes room t la := by
  cases hAsks with
  | mk hOk =>
    exact ⟨⟨hOk h.input, h.ids, h.stack, h.position, h.skip, h.reuse⟩, h.fits, h.pending, h.deferred, h.behind⟩

theorem Holds.deferred_eq (h : Holds env Ok bytes room s la) (hMissing : la.isMissing = false) : s.deferred = none := by
  by_contra hSome
  rw [h.behind (Option.isSome_iff_ne_none.mpr hSome)] at hMissing
  cases hMissing

theorem Holds.push (h : Holds env Ok bytes room s la) {q : StateId} {x : Subtree} {nextId : NodeId}
    (hGrown : x.All (Grown env.language env.firstId nextId) ∧ x.size = la.size ∧ s.nextId ≤ nextId ∧
      (x.id < env.firstId ∨ s.nextId ≤ x.id))
    (hOpens : env.language.table.Opens q → env.language.table.Opens s.state ∧ ¬x.IsLone) :
    Covers env Ok bytes room { s with stack := s.stack.push q x, nextId } := by
  obtain ⟨hNodes, hSize, hNext, hOrigin⟩ := hGrown
  have hEnd := h.fits.le h.position
  have hGround : Grounded env Ok bytes room { s with stack := s.stack.push q x, nextId } :=
    h.toGrounded.push rfl hNodes hOpens hOrigin (by rwa [hSize]) h.input hNext (.inr rfl) rfl
  refine hGround.covers h.pending fun d hd => ?_
  -- Something is deferred only behind a token without a size.
  cases la with
  | missing symbol =>
    have hSame : (s.stack.push q x).position = s.position := by
      rw [ParseStack.position_push, hSize]
      rfl
    have hFits := h.deferred d hd
    rw [← hSame] at hFits
    exact hFits
  | token t => exact absurd ((h.deferred_eq rfl).symm.trans hd) (Option.some_ne_none d).symm
  | reused subtree => exact absurd ((h.deferred_eq rfl).symm.trans hd) (Option.some_ne_none d).symm

/-- A skipped lookahead goes into an error, with the last one if that is joined. -/
theorem Holds.skipLeaf (h : Holds env Ok bytes room s la) (hMissing : la.isMissing = false) {leaf : Subtree} {nextId : NodeId}
    (hGrown : leaf.All (Grown env.language env.firstId nextId) ∧ leaf.size = la.size ∧ s.nextId ≤ nextId ∧
      (leaf.id < env.firstId ∨ s.nextId ≤ leaf.id)) :
    Covers env Ok bytes room (Session.skipLeaf env { s with nextId } leaf) ∧
      (Session.skipLeaf env { s with nextId } leaf).position = s.position + la.size := by
  obtain ⟨hNodes, hSize, hNext, -⟩ := hGrown
  have hEnd := h.fits.le h.position
  have hPlaced : s.position = _ := h.stack.placed.position_eq
  have hGround : Grounded env Ok bytes room { s with nextId } :=
    h.toGrounded.restack h.input hNext (h.stack.later hNext) h.position (.inr ⟨rfl, fun x hx => .inl hx⟩) rfl
  have hRegular := hGround.stack
  have hDeferred := h.deferred_eq hMissing
  rw [Session.skipLeaf]
  cases hSplit : splitAtSkip { s with nextId } with
  | none =>
    dsimp only
    have hTotal : s.position + totalOf size [leaf] = s.position + la.size := by
      rw [totalOf_cons, totalOf_nil, hSize, Nat.add_zero]
    refine ⟨Grounded.covers ?_ h.pending fun d hd => absurd (hDeferred.symm.trans hd) (Option.some_ne_none d).symm, hTotal⟩
    refine hGround.bury rfl hRegular (by simpa using hNodes) ?_ h.input rfl (fun p hp => (Option.some.inj hp).symm) rfl
    exact Nat.le_trans (Nat.le_of_eq hTotal) hEnd
  | some parts =>
    obtain ⟨previous, between, below⟩ := parts
    obtain ⟨above, entry, hStack, rfl, hLast, hId⟩ := splitAtSkip_eq hSplit
    obtain ⟨hFirst, hLt, hJoined, hUnique⟩ := hGround.skip previous hLast
    rw [hStack] at hRegular hUnique hPlaced
    obtain rfl := hUnique entry (by simp) hId
    dsimp only
    have hBelow : below.Regular env.language env.firstId nextId := (hRegular.of_append (s := entry :: below)).tail
    have hTotal : below.position + totalOf size (entry.subtree.children ++ ParseStack.subtrees above ++ [leaf]) =
        s.position + la.size := by
      have hBelowEnd := hBelow.placed.position_eq
      simp only [ParseStack.subtrees_append, ParseStack.subtrees_cons, totalOf_append, totalOf_cons, totalOf_nil] at hPlaced ⊢
      omega
    refine ⟨Grounded.covers ?_ h.pending fun d hd => absurd (hDeferred.symm.trans hd) (Option.some_ne_none d).symm, hTotal⟩
    refine hGround.bury rfl hBelow (fun x hx => ?_) (Nat.le_trans (Nat.le_of_eq hTotal) hEnd) h.input rfl
      (fun p hp => (Option.some.inj hp).symm) rfl
    · simp only [List.mem_append, List.mem_singleton] at hx
      rcases hx with (hx | hx) | rfl
      · exact (hRegular.nodes entry (by simp)).child x hx
      · obtain ⟨e, he, rfl⟩ := ParseStack.mem_subtrees.mp hx
        exact hRegular.nodes e (List.mem_append_left _ he)
      · exact hNodes

/-- A lookahead that is kept waits again, as long as the position stays. -/
theorem Grounded.awaits {la : Lookahead} (h : Grounded env Ok bytes room t) (hSame : t.position = s.position)
    (hFits : la.Fits env bytes room s.position) (hDeferred : ∀ d, t.deferred = some d → d.Fits env bytes room s.position)
    (hBehind : t.deferred.isSome = true → la.isMissing = true) : Covers env Ok bytes room { t with pending := some la } where
  toGrounded := ⟨h.input, h.ids, h.stack, h.position, h.skip, h.reuse⟩
  pending d hd := by
    rw [← Option.some.inj hd]
    change la.Fits env bytes room t.position
    rwa [hSame]
  deferred d hd := by
    change d.Fits env bytes room t.position
    rw [hSame]
    exact hDeferred d hd
  behind hSome d hd := by
    obtain rfl := Option.some.inj hd
    exact hBehind hSome

theorem Holds.ne_eof (h : Holds env Ok bytes room s la) (hMissing : la.isMissing = false)
    (hToken : ∀ t, la = .token t → t.symbol ≠ .eof) : la.symbol ≠ .eof := by
  cases la with
  | token t => exact hToken t rfl
  | reused subtree => exact h.fits.1.here.ne_eof
  | missing symbol => cases hMissing

theorem Stands.ne_eof_of_isExtra (hBuilt : env.language.BuiltFrom g) {leaf : Subtree} {nextId : NodeId}
    (h : Stands env s la leaf nextId) (hFits : la.Fits env bytes room s.position) (hExtra : leaf.isExtra = true) :
    la.symbol ≠ .eof := by
  cases h with
  | token t => exact (hBuilt.isToken_of_isExtra hExtra).2
  | missing symbol => exact hFits.2
  | shared => exact hFits.1.here.ne_eof

/-- Whatever happens to a lookahead, the stack covers the text up to the position. -/
theorem Holds.acts (hBuilt : env.language.BuiltFrom g) (h : Holds env Ok bytes room s la) {id : Option ProductionId}
    {p : Progress σ} (hActs : Acts env Ok s la id p) : CoversAfter env Ok bytes room p := by
  cases hActs with
  | @interior subtree hLeaf =>
    obtain ⟨hFormer, hChanges, _, _⟩ := h.fits
    have hGrown := hFormer.grown_of_former (l := env.language) hChanges h.ids
    refine h.push ⟨hGrown, rfl, Nat.le_refl _, .inl hFormer.here.id_lt⟩ fun hOpens =>
      ⟨hBuilt.opens_of_getD hOpens, fun ⟨_, hNil, _⟩ => ?_⟩
    rw [Subtree.isLeaf, hNil] at hLeaf
    cases hLeaf
  | @shift _ next leaf nextId hInterior hAction hLeaves =>
    obtain ⟨hError, hShift⟩ := actionOn_eq_some hAction
    have hGrown := hLeaves.grown h.fits h.ids (hBuilt.ne_eof_of_shift hShift) (hBuilt.isTerminal_of_action hShift)
    exact h.push hGrown fun hOpens => absurd hOpens (hBuilt.not_opens_of_shift hShift)
  | @reduce _ id hInterior hAction =>
    obtain ⟨hGround, hSame⟩ := h.toGrounded.reduce hBuilt id (la.extent s.position)
    exact hGround.awaits hSame h.fits h.deferred h.behind
  | accept hInterior hAction =>
    obtain ⟨_, hAccept⟩ := actionOn_eq_some hAction
    have hEof := hBuilt.eof_of_accept hAccept
    rw [hEof] at hAccept
    exact h.toGrounded.accept hBuilt (.inr hAccept) (length_le_of_eof h.fits hEof)
  | @extra _ leaf nextId hInterior hAction hStands hExtra =>
    have hEof := hStands.ne_eof_of_isExtra hBuilt h.fits hExtra
    exact h.push (hStands.grown h.fits h.ids hEof) fun hOpens =>
      ⟨hOpens, fun ⟨hNot, _⟩ => Bool.false_ne_true (hNot.symm.trans hExtra)⟩
  | dropped => exact h.toGrounded.covers h.pending h.deferred
  | @insert _ r symbol hInterior hMissing hAsks hAttempts hToken =>
    have hAsked := h.asks hAsks
    refine ⟨⟨hAsked.input, hAsked.ids, hAsked.stack, hAsked.position, hAsked.skip, hAsked.reuse⟩, ?_, ?_, ?_⟩
    · intro d hd
      obtain rfl := Option.some.inj hd
      exact hToken
    · intro d hd
      obtain rfl := Option.some.inj hd
      exact hAsked.fits
    · intro _ d hd
      obtain rfl := Option.some.inj hd
      rfl
  | @pop _ r depth hInterior hMissing hAsks hAttempts hPos hDepth =>
    have hAsked := h.asks hAsks
    obtain ⟨hGround, hSame, hDeferred⟩ := hAsked.toGrounded.pop depth
    exact hGround.awaits hSame hAsked.fits (hDeferred ▸ hAsked.deferred) (hDeferred ▸ hAsked.behind)
  | @skipError t r hAsks hError =>
    have hAsked := h.asks hAsks
    have hEnd := h.fits.le h.position
    cases hAsks with
    | mk _ =>
      refine Grounded.covers ?_ h.pending fun d hd => absurd ((h.deferred_eq rfl).symm.trans hd) (Option.some_ne_none d).symm
      exact hAsked.toGrounded.push rfl (all_grown_errorLeaf s.state) (fun hOpens =>
        ⟨hOpens, fun ⟨hNot, _⟩ => Bool.false_ne_true hNot.symm⟩) (.inr (Nat.le_refl _)) hEnd hAsked.input (Nat.le_succ _) (.inl rfl) rfl
  | @skip _ leaf nextId r hInterior hMissing hAsks hEof hStands =>
    have hAsked := h.asks hAsks
    have hGrown := hStands.grown h.fits h.ids (h.ne_eof hMissing hEof)
    cases hAsks with
    | mk _ => exact (hAsked.skipLeaf hMissing hGrown).1
  | @wrap t r hAsks hEof hWrapped =>
    have hAsked := h.asks hAsks
    have hPlaced : s.position = _ := h.stack.placed.position_eq
    have hEnd := h.position
    cases hAsks with
    | mk _ =>
      refine Grounded.covers ?_ h.pending fun d hd => absurd ((h.deferred_eq rfl).symm.trans hd) (Option.some_ne_none d).symm
      have hNil : ParseStack.Regular env.language env.firstId s.nextId [] := .nil
      refine hAsked.toGrounded.bury ?_ hNil h.stack.subtrees ?_ hAsked.input rfl (by simp) rfl
      · rfl
      · rw [← hPlaced]
        simpa [ParseStack.position] using hEnd
  | @giveUp t r hAsks hEof =>
    have hEnd := length_le_of_eof h.fits hEof
    have hPlaced : s.position = _ := h.stack.placed.position_eq
    cases hAsks with
    | mk _ =>
      have hNode := all_grown_errorNode 0 h.stack.subtrees
      refine h.toGrounded.whole hEnd (hNode.update ?_) hPlaced.symm (Nat.le_succ _)
      exact ⟨hNode.here.toSound.congr rfl rfl rfl (Nat.le_refl _), hNode.here.id_lt, hNode.here.ne_eof, hNode.here.leaf⟩

end Session
end Reparse
