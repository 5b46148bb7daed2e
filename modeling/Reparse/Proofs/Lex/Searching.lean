import Reparse.Proofs.Lex.Bounds
import Reparse.Proofs.Table
/-!
# Steps of a search

The search for a longest match, one look at a node or one character at a time. In a valid table the nodes that it
comes to are all there.
-/
namespace Reparse

/-- A search under way: the nodes still to begin from, those that splits lead to, and the set so far. -/
structure LexSearch (σ : Type) where
  pos : Nat
  firsts : List UInt32
  pending : List UInt32
  set : Array UInt32
  state : LexState σ

variable {σ : Type} {t : Table} {src : Source σ}

namespace LexSearch

def nodes (r : LexSearch σ) : List UInt32 := r.firsts ++ r.pending ++ r.set.toList

def start (t : Table) (pos : Nat) (tokens : List Symbol) (s : LexState σ) : LexSearch σ where
  pos
  firsts := tokens.filterMap fun token => (t.lexOf token).start
  pending := []
  set := #[]
  state := { s with marks := s.marks.renew }

inductive Step (t : Table) (src : Source σ) : LexSearch σ → LexSearch σ → Prop
  | begin {pos : Nat} {first : UInt32} {firsts : List UInt32} {set : Array UInt32} {s : LexState σ} :
    Step t src ⟨pos, first :: firsts, [], set, s⟩ ⟨pos, firsts, [first], set, s⟩
  | marked {pos : Nat} {node : UInt32} {firsts pending : List UInt32} {set : Array UInt32} {s : LexState σ} :
    s.marks.isMarked node = true → Step t src ⟨pos, firsts, node :: pending, set, s⟩ ⟨pos, firsts, pending, set, s⟩
  | split {pos : Nat} {node a b : UInt32} {firsts pending : List UInt32} {set : Array UInt32} {s : LexState σ} :
    s.marks.isMarked node = false → t.lexNodes[node.toNat]? = some (.split a b) →
    Step t src ⟨pos, firsts, node :: pending, set, s⟩
      ⟨pos, firsts, a :: b :: pending, set, { s with marks := s.marks.mark node }⟩
  | keep {pos : Nat} {node : UInt32} {firsts pending : List UInt32} {set : Array UInt32} {s : LexState σ} :
    s.marks.isMarked node = false → t.lexNodes.IsStop node →
    Step t src ⟨pos, firsts, node :: pending, set, s⟩
      ⟨pos, firsts, pending, set.push node, { s with marks := s.marks.mark node }⟩
  | read {pos : Nat} {set : Array UInt32} {s : LexState σ} {d : Decoded} {input : σ} :
    set.any t.lexNodes.isConsuming = true → src.charAt pos s.input = (some d, input) →
    Step t src ⟨pos, [], [], set, s⟩
      ⟨pos + d.width, set.toList.filterMap (t.lexNodes.after? d.char), [], #[], ⟨s.marks.renew, input⟩⟩

def Steps (t : Table) (src : Source σ) : LexSearch σ → LexSearch σ → Prop := Relation.ReflTransGen (Step t src)

/-! ## Nodes -/

/-- All nodes at hand are in the table. -/
def InTable (t : Table) (r : LexSearch σ) : Prop := ∀ n ∈ r.nodes, n.toNat < t.lexNodes.size

theorem inTable_iff {r : LexSearch σ} : r.InTable t ↔ (∀ n ∈ r.firsts, n.toNat < t.lexNodes.size) ∧
    (∀ n ∈ r.pending, n.toNat < t.lexNodes.size) ∧ ∀ n ∈ r.set, n.toNat < t.lexNodes.size := by
  simp only [InTable, nodes, List.mem_append, Array.mem_toList_iff, or_imp, forall_and, and_assoc]

theorem inTable_start (h : t.Valid) (pos : Nat) (tokens : List Symbol) (s : LexState σ) :
    (start t pos tokens s).InTable t := by
  rw [inTable_iff]
  refine ⟨?_, ?_, ?_⟩
  · intro n hn
    obtain ⟨token, _, hStart⟩ := List.mem_filterMap.mp hn
    exact h.start_lt hStart
  · intro n hn
    cases hn
  · intro n hn
    exact absurd hn (Array.not_mem_empty n)

theorem Step.inTable (h : t.Valid) {r r' : LexSearch σ} (hStep : Step t src r r') (hr : r.InTable t) : r'.InTable t := by
  rw [inTable_iff] at hr ⊢
  obtain ⟨hFirsts, hPending, hSet⟩ := hr
  cases hStep with
  | begin =>
    rw [List.forall_mem_cons] at hFirsts
    exact ⟨hFirsts.2, List.forall_mem_singleton.mpr hFirsts.1, hSet⟩
  | marked =>
    rw [List.forall_mem_cons] at hPending
    exact ⟨hFirsts, hPending.2, hSet⟩
  | split _ hNode =>
    rw [List.forall_mem_cons] at hPending
    obtain ⟨ha, hb⟩ := h.split_lt hNode
    exact ⟨hFirsts, List.forall_mem_cons.mpr ⟨ha, List.forall_mem_cons.mpr ⟨hb, hPending.2⟩⟩, hSet⟩
  | keep =>
    rw [List.forall_mem_cons] at hPending
    refine ⟨hFirsts, hPending.2, ?_⟩
    intro n hn
    rcases Array.mem_push.mp hn with hn | rfl
    · exact hSet n hn
    · exact hPending.1
  | read =>
    refine ⟨?_, ?_, ?_⟩
    · intro n hn
      obtain ⟨node, _, hAfter⟩ := List.mem_filterMap.mp hn
      exact h.next_lt hAfter
    · intro n hn
      cases hn
    · intro n hn
      exact absurd hn (Array.not_mem_empty n)

theorem Steps.inTable (h : t.Valid) {r r' : LexSearch σ} (hSteps : Steps t src r r') (hr : r.InTable t) :
    r'.InTable t := by
  induction hSteps with
  | refl => exact hr
  | tail _ hStep ih => exact hStep.inTable h ih

/-! ## The whole search -/

/-- There is nothing left to look at, and no character to go on with. -/
inductive Ends (t : Table) (src : Source σ) : LexSearch σ → LexState σ → Prop
  | done {pos : Nat} {set : Array UInt32} {s : LexState σ} : set.any t.lexNodes.isConsuming = false →
    Ends t src ⟨pos, [], [], set, s⟩ s
  | atEnd {pos : Nat} {set : Array UInt32} {s : LexState σ} {input : σ} : set.any t.lexNodes.isConsuming = true →
    src.charAt pos s.input = (none, input) → Ends t src ⟨pos, [], [], set, s⟩ { s with input }

end LexSearch

open LexSearch

section Whole

variable (h : t.Valid)
include h

theorem steps_close (src : Source σ) (pos : Nat) (firsts : List UInt32) (input : σ) {fuel : Nat} {pending : List UInt32}
    {m : LexMarks} {set : Array UInt32} (hPending : ∀ n ∈ pending, n.toNat < t.lexNodes.size) (hSize : m.marks.size = t.lexNodes.size)
    (hFuel : pending.length + 2 * t.lexNodes.unmarked m ≤ fuel) :
    Steps t src ⟨pos, firsts, pending, set, ⟨m, input⟩⟩ ⟨pos, firsts, [], (t.lexNodes.close fuel pending m set).1,
      ⟨(t.lexNodes.close fuel pending m set).2, input⟩⟩ ∧
      (t.lexNodes.close fuel pending m set).2.marks.size = t.lexNodes.size := by
  fun_induction LexArena.close t.lexNodes fuel pending m set with
  | case1 pending m set =>
    obtain rfl : pending = [] := List.eq_nil_of_length_eq_zero (by omega)
    exact ⟨.refl, hSize⟩
  | case2 => exact ⟨.refl, hSize⟩
  | case3 fuel n todo m set hMarked ih =>
    rw [List.forall_mem_cons] at hPending
    rw [List.length_cons] at hFuel
    obtain ⟨hSteps, hSame⟩ := ih hPending.2 hSize (by omega)
    exact ⟨.head (.marked hMarked) hSteps, hSame⟩
  | case4 fuel n todo m set hUnmarked marks a b hNode ih =>
    rw [List.forall_mem_cons] at hPending
    rw [List.length_cons] at hFuel
    rw [Bool.not_eq_true] at hUnmarked
    have hCount : t.lexNodes.unmarked marks + 1 ≤ t.lexNodes.unmarked m :=
      LexArena.unmarked_mark hSize hPending.1 hUnmarked
    obtain ⟨ha, hb⟩ := h.split_lt hNode
    obtain ⟨hSteps, hSame⟩ := ih (List.forall_mem_cons.mpr ⟨ha, List.forall_mem_cons.mpr ⟨hb, hPending.2⟩⟩)
      ((LexMarks.size_mark m n).trans hSize) (by simp only [List.length_cons]; omega)
    exact ⟨.head (.split hUnmarked hNode) hSteps, hSame⟩
  | case5 fuel n todo m set hUnmarked marks node hSplit hNode ih =>
    rw [List.forall_mem_cons] at hPending
    rw [List.length_cons] at hFuel
    rw [Bool.not_eq_true] at hUnmarked
    have hCount : t.lexNodes.unmarked marks + 1 ≤ t.lexNodes.unmarked m :=
      LexArena.unmarked_mark hSize hPending.1 hUnmarked
    obtain ⟨hSteps, hSame⟩ := ih hPending.2 ((LexMarks.size_mark m n).trans hSize) (by omega)
    exact ⟨.head (.keep hUnmarked ⟨node, hNode, hSplit⟩) hSteps, hSame⟩
  | case6 fuel n todo m set hUnmarked marks hNode ih =>
    rw [List.forall_mem_cons] at hPending
    exact absurd hPending.1 (Nat.not_lt.mpr (Array.getElem?_eq_none_iff.mp hNode))

theorem steps_addNodes (src : Source σ) (pos : Nat) (input : σ) {firsts : List UInt32} (m : LexMarks)
    (set : Array UInt32) (hFirsts : ∀ n ∈ firsts, n.toNat < t.lexNodes.size) (hSize : m.marks.size = t.lexNodes.size) :
    Steps t src ⟨pos, firsts, [], set, ⟨m, input⟩⟩ ⟨pos, [], [], (t.lexNodes.addNodes firsts m set).1,
      ⟨(t.lexNodes.addNodes firsts m set).2, input⟩⟩ ∧
      (t.lexNodes.addNodes firsts m set).2.marks.size = t.lexNodes.size := by
  induction firsts generalizing m set with
  | nil => exact ⟨.refl, hSize⟩
  | cons first rest ih =>
    rw [List.forall_mem_cons] at hFirsts
    have hFuel : [first].length + 2 * t.lexNodes.unmarked m ≤ 2 * t.lexNodes.size + 1 := by
      have hCount := t.lexNodes.unmarked_le m
      rw [List.length_singleton]
      omega
    obtain ⟨hClose, hSize'⟩ := steps_close h src pos rest input (List.forall_mem_singleton.mpr hFirsts.1) hSize hFuel
    obtain ⟨hRest, hSame⟩ := ih _ _ hFirsts.2 hSize'
    exact ⟨.head .begin (.trans hClose hRest), hSame⟩

theorem steps_matchFrom (pos furthest : Nat) (best : Option (Nat × Symbol)) {set : Array UInt32} {s : LexState σ}
    (hSet : InTable t ⟨pos, [], [], set, s⟩) (hSize : s.marks.marks.size = t.lexNodes.size) :
    ∃ r, Steps t src ⟨pos, [], [], set, s⟩ r ∧ Ends t src r (matchFrom t src pos furthest best set s).2 := by
  generalize hLeft : src.size - pos = left
  induction left using Nat.strongRecOn generalizing pos furthest best set s with
  | ind left ih =>
    cases hConsuming : set.any t.lexNodes.isConsuming with
    | false =>
      rw [(matchFrom_done t src hConsuming).1]
      exact ⟨_, .refl, .done hConsuming⟩
    | true =>
      rcases hChar : src.charAt pos s.input with ⟨_ | d, input⟩
      · rw [(matchFrom_end t src hConsuming hChar).1]
        exact ⟨_, .refl, .atEnd hConsuming hChar⟩
      · have hPos := Source.lt_size_of_charAt (congrArg Prod.fst hChar)
        have hWidth := d.width_pos
        have hRead : Step t src ⟨pos, [], [], set, s⟩ _ := .read hConsuming hChar
        have hTargets := inTable_iff.mp (hRead.inTable h hSet)
        obtain ⟨hAdd, hSize'⟩ := steps_addNodes h src (pos + d.width) input s.marks.renew #[] hTargets.1 hSize
        rw [(matchFrom_step t src hConsuming hChar rfl).1]
        obtain ⟨r, hSteps, hEnds⟩ := ih (src.size - (pos + d.width)) (by omega) (pos + d.width) _ _
          (hAdd.inTable h (hRead.inTable h hSet)) hSize' rfl
        exact ⟨r, .head hRead (.trans hAdd hSteps), hEnds⟩

/-- A search for the longest match takes these steps, and in a valid table it never lacks a node. -/
theorem steps_longestMatch (pos : Nat) (tokens : List Symbol) {s : LexState σ}
    (hSize : s.marks.marks.size = t.lexNodes.size) :
    ∃ r, Steps t src (start t pos tokens s) r ∧ Ends t src r (longestMatch t src pos tokens s).2 := by
  have hStart := inTable_start h pos tokens s
  obtain ⟨hAdd, hSize'⟩ := steps_addNodes h src pos s.input s.marks.renew #[] (inTable_iff.mp hStart).1 hSize
  obtain ⟨r, hSteps, hEnds⟩ := steps_matchFrom h pos pos none (hAdd.inTable h hStart) hSize'
  rw [(longestMatch_step t src rfl).1]
  exact ⟨r, .trans hAdd hSteps, hEnds⟩

end Whole

end Reparse
