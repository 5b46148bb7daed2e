import Reparse.Proofs.Parse.Nodes
import Reparse.Proofs.Parse.Productions
/-!
# Extras on a stack

Only errors and the extras of the table are marked as extras, in all trees that a session may take nodes from. Where no
rule mentions an extra the table leads over none of them. So an extra on a stack repeats the state below it, and the
state of the stack is that of its top structural entry.
-/
namespace Reparse

open Subtree

variable {σ : Type}

namespace Subtree

/-- Only errors and the extras of the table are marked as extras. -/
def Marked (t : Table) (info : NodeInfo) (_ : List Subtree) : Prop :=
  info.extra = true → info.symbol = .error ∨ t.isExtra info.symbol = true

theorem lasting_marked (l : Language) : Lasting l (Marked l.table) where
  token _ _ _ _ _ _ _ := .inr
  skipped _ _ _ _ _ := fun _ => .inl rfl
  absent _ _ _ _ := fun hExtra => absurd hExtra Bool.false_ne_true
  parent _ _ _ _ _ _ := fun hExtra => absurd hExtra Bool.false_ne_true
  changed _ _ _ _ _ h := h
  extra _ _ _ _ hSymbol hInfo _ := fun hExtra => hSymbol ▸ hInfo hExtra

theorem marked_edited (t : Table) : KeptByEdits (Marked t) := by
  intro info children e id h
  rw [edited]
  exact h

end Subtree

theorem Grammar.Grows.marked {g : Grammar} {l : Language} {tree : Tree} (h : g.Grows tree) (hBuilt : l.BuiltFrom g) :
    tree.root.All (Marked l.table) := by
  induction h with
  | @parsed σ p host input old next limit parsed hParser _ hParse ih =>
    have hTable : p.language.table = l.table := Except.ok.inj (hParser.build.symm.trans hBuilt.build)
    rw [← hTable] at ih ⊢
    exact Parser.parse_all (lasting_marked p.language) (fun tree hTree _ => ih tree hTree) hParse
  | edited e id _ ih => exact all_edited (marked_edited l.table) _ id _ ih

namespace ParseStack

variable {s : ParseStack} {subtree : Subtree}

/-- Every extra repeats the state below it. -/
inductive Aligned : ParseStack → Prop
  | nil : Aligned []
  | cons {entry : StackEntry} {rest : ParseStack} : Aligned rest →
    (entry.subtree.isExtra = true → entry.state = rest.state) → Aligned (entry :: rest)

theorem Aligned.of_append {top : List StackEntry} (h : Aligned (top ++ s)) : s.Aligned := by
  induction top with
  | nil => exact h
  | cons _ _ ih =>
    cases h with
    | cons h _ => exact ih h

theorem Aligned.push (h : s.Aligned) {q : StateId} (hStructural : subtree.isExtra = false) : (s.push q subtree).Aligned :=
  .cons h fun hExtra => absurd (hStructural.symm.trans hExtra) Bool.false_ne_true

theorem Aligned.pushExtra (h : s.Aligned) (subtree : Subtree) : (s.pushExtra subtree).Aligned := .cons h fun _ => rfl

theorem Aligned.pushExtras (h : s.Aligned) (extras : List Subtree) : (s.pushExtras extras).Aligned := by
  induction extras generalizing s with
  | nil => exact h
  | cons extra _ ih => exact ih (h.pushExtra extra)

/-! ## States of the structural entries -/

/-- The state is that of the top structural entry, or the first one. -/
theorem Aligned.structuralStates (h : s.Aligned) : ∃ rest, s.structuralStates = s.state :: rest := by
  induction h with
  | nil => exact ⟨[], rfl⟩
  | @cons entry rest _ hState ih =>
    cases hExtra : entry.subtree.isExtra with
    | true =>
      obtain ⟨below, hBelow⟩ := ih
      rw [structuralStates_eq, structural_cons_extra hExtra, ← structuralStates_eq]
      exact ⟨below, hBelow.trans (by rw [← hState hExtra]; rfl)⟩
    | false =>
      rw [structuralStates_eq, structural_cons hExtra]
      exact ⟨_, rfl⟩

theorem structuralStates_pushExtra (s : ParseStack) {subtree : Subtree} (hExtra : subtree.isExtra = true) :
    (s.pushExtra subtree).structuralStates = s.structuralStates := by
  rw [structuralStates_eq, pushExtra, push, structural_cons_extra hExtra, ← structuralStates_eq]

theorem structuralStates_pushExtras (s : ParseStack) {extras : List Subtree} (h : ∀ x ∈ extras, x.isExtra = true) :
    (s.pushExtras extras).structuralStates = s.structuralStates := by
  induction extras generalizing s with
  | nil => rfl
  | cons x rest ih =>
    obtain ⟨hFirst, hRest⟩ := List.forall_mem_cons.mp h
    exact (ih (s.pushExtra x) hRest).trans (s.structuralStates_pushExtra hFirst)

theorem structuralStates_push (s : ParseStack) (q : StateId) {subtree : Subtree} (hStructural : subtree.isExtra = false) :
    (s.push q subtree).structuralStates = q :: s.structuralStates := by
  rw [structuralStates_eq, push, structural_cons hStructural]
  rfl

/-- Splitting off structural entries pops their states. -/
theorem structuralStates_splitStructural (count : Nat) (s : ParseStack) :
    (splitStructural count s).2.structuralStates = RecoveryContext.popStates s.structuralStates count := by
  rw [structuralStates_eq, (structural_splitStructural count s).2, structuralStates_eq, RecoveryContext.popStates,
    List.length_append, List.length_map, List.length_singleton, Nat.add_sub_cancel, List.drop_append_of_le_length,
    List.map_drop]
  · rcases Nat.le_total count s.structural.length with hLe | hLe
    · rw [Nat.min_eq_left hLe]
    · rw [Nat.min_eq_right hLe, List.drop_of_length_le, List.drop_of_length_le]
      · simp
      · simpa using hLe
  · rw [List.length_map]
    exact Nat.min_le_right _ _

end ParseStack

namespace Session

variable {env : SessionEnv σ} {g : Grammar} {s t : Session σ} {la : Lookahead} {leaf : Subtree} {nextId : NodeId}

/-- Every extra on the stack repeats the state below it, and only errors and the extras of the table are marked as
extras, in all that is at hand. -/
structure Tidy (env : SessionEnv σ) (s : Session σ) : Prop where
  nodes : s.Keeps (Marked env.language.table)
  aligned : s.stack.Aligned

theorem Leaves.symbol_eq (h : Leaves env s la leaf nextId) : leaf.symbol = la.symbol := by
  cases h with
  | stands h => cases h <;> rfl
  | restated => rfl

theorem aligned_reduce (h : s.stack.Aligned) (id : ProductionId) (extent : Nat) :
    (s.reduce env id extent).stack.Aligned := by
  obtain ⟨top, children, below, hStack, -, -, hReduce⟩ := reduce_eq env s id extent
  rw [hStack] at h
  rw [hReduce]
  apply ParseStack.Aligned.pushExtras
  exact h.of_append.of_append.push rfl

/-- A reduction puts the state that the goto leads to over those that are left. -/
theorem structuralStates_reduce (h : s.stack.Aligned) (id : ProductionId) (extent : Nat) {next : StateId}
    (hGoto : env.language.table.goto ((RecoveryContext.popStates s.stack.structuralStates
      (env.language.table.production id).childCount.toNat).headD 0) (env.language.table.production id).lhs = some next) :
    (s.reduce env id extent).stack.structuralStates =
      next :: RecoveryContext.popStates s.stack.structuralStates (env.language.table.production id).childCount.toNat := by
  obtain ⟨top, children, below, hStack, hExtras, hSplit, hReduce⟩ := reduce_eq env s id extent
  -- The extras at the top come back over the node. They are none of the states before and none after it.
  have hTop : s.stack.structuralStates = ParseStack.structuralStates (children ++ below) := by
    rw [hStack, ParseStack.structuralStates_eq, ParseStack.structural_append, ParseStack.structural_extras hExtras,
      List.nil_append, ← ParseStack.structuralStates_eq]
  have hBelow := ParseStack.structuralStates_splitStructural (env.language.table.production id).childCount.toNat
    (children ++ below)
  rw [hSplit] at hBelow
  rw [hStack] at h
  obtain ⟨rest, hHead⟩ := h.of_append.of_append.structuralStates
  rw [hTop, ← hBelow, hHead, List.headD_cons] at hGoto
  rw [hTop, ← hBelow, hReduce, ParseStack.structuralStates_pushExtras, ParseStack.structuralStates_push, hGoto]
  · rfl
  · rfl
  · intro x hx
    obtain ⟨entry, hEntry, rfl⟩ := ParseStack.mem_subtrees.mp hx
    exact hExtras entry hEntry

theorem Takes.aligned (h : s.stack.Aligned) {next : Option Lookahead} {id : Option ProductionId}
    (hTakes : Takes env s next id t) : t.stack.Aligned := by
  cases hTakes with
  | reduced => exact aligned_reduce (s := { s with reuse := _ }) h _ _
  | _ => exact h

section Built

variable (hBuilt : env.language.BuiltFrom g) (hApart : g.ExtrasApart)
include hBuilt hApart

theorem Acts.aligned (h : s.stack.Aligned) (hla : la.Keeps (Marked env.language.table)) {id : Option ProductionId}
    (hActs : Acts env (fun _ => True) s la id (.running t)) : t.stack.Aligned := by
  cases hActs with
  | @interior subtree =>
    cases hGoto : env.language.table.goto s.state subtree.symbol with
    | none => exact h.pushExtra subtree
    | some next => exact h.push (hBuilt.not_isExtra_of_leads hApart (hla _ rfl).here (.inr hGoto))
  | shift _ hAction hLeaves =>
    obtain ⟨-, hShift⟩ := actionOn_eq_some hAction
    rw [← hLeaves.symbol_eq] at hShift
    have hLeaf := hLeaves.keeps (lasting_marked env.language) hla
    exact h.push (hBuilt.not_isExtra_of_leads hApart hLeaf.here (.inl hShift))
  | reduce => exact aligned_reduce h _ _
  | extra => exact h.pushExtra _
  | dropped => exact h
  | insert _ _ hAsks =>
    cases hAsks
    exact h
  | @pop _ r depth _ _ hAsks =>
    obtain ⟨top, below, hStack, -, hPop⟩ := popStack_eq env r depth
    cases hAsks
    dsimp only at hStack
    rw [hPop]
    rw [hStack] at h
    exact h.of_append.pushExtra _
  | skipError => exact h.pushExtra _
  | @skip _ leaf nextId r _ _ hAsks =>
    obtain ⟨top, below, children, hStack, -, hSkip⟩ := skipLeaf_eq env { r with nextId } leaf
    cases hAsks
    dsimp only at hStack
    rw [hSkip]
    rw [hStack] at h
    exact h.of_append.pushExtra _
  | wrap => exact ParseStack.Aligned.nil.pushExtra _

theorem Tidy.next (h : s.Tidy env) (hNext : s.next env = .running t) : t.Tidy env := by
  have hNodes := h.nodes.next (lasting_marked env.language)
  have hSteps := steps_next env.keeps_true s
  have hStarts : Tidy env { s with steps := s.steps + 1 } :=
    ⟨⟨h.nodes.stack, h.nodes.skip, h.nodes.reuse, h.nodes.pending, h.nodes.deferred⟩, h.aligned⟩
  generalize s.reduction? env = id at hSteps
  rw [hNext] at hNodes hSteps
  refine ⟨hNodes, ?_⟩
  cases hSteps with
  | reduced hTakes => exact hTakes.aligned hStarts.aligned
  | acted hTakes hActs =>
    obtain ⟨-, hLookahead⟩ := hTakes.keeps (lasting_marked env.language) hStarts.nodes
    exact hActs.aligned hBuilt hApart (hTakes.aligned hStarts.aligned) (hLookahead _ rfl)

theorem Tidy.reaches (h : s.Tidy env) (hReaches : Reaches env s t) : t.Tidy env :=
  hReaches.invariant h fun _ _ hs hNext => hs.next hBuilt hApart hNext

end Built

theorem tidy_start {marks : LexMarks} {input : σ} {old : Option Tree} {firstId : NodeId}
    (hOld : ∀ tree ∈ old, tree.root.All (Marked env.language.table)) : (start marks input old firstId).Tidy env :=
  ⟨keeps_start hOld, .nil⟩

end Session
end Reparse
