import Reparse.Parse.Stack
import Reparse.Proofs.Tree.Tiling
import Mathlib
/-!
# Parse stacks

The position of a stack is the size of all that is on it. Entries are taken off in pieces that are put together
again below.
-/
namespace Reparse

theorem drop_length_takeWhile {α : Type} (p : α → Bool) (l : List α) : l.drop (l.takeWhile p).length = l.dropWhile p := by
  induction l with
  | nil => rfl
  | cons a l ih =>
    cases hp : p a with
    | true => simp [hp, ih]
    | false => simp [hp]

namespace ParseStack

open Subtree

variable {s rest : ParseStack} {entry : StackEntry}

@[simp] theorem state_push (s : ParseStack) (state : StateId) (subtree : Subtree) : (s.push state subtree).state = state := rfl

@[simp] theorem position_push (s : ParseStack) (state : StateId) (subtree : Subtree) :
    (s.push state subtree).position = s.position + subtree.size := rfl

@[simp] theorem state_pushExtra (s : ParseStack) (subtree : Subtree) : (s.pushExtra subtree).state = s.state := rfl

@[simp] theorem position_pushExtra (s : ParseStack) (subtree : Subtree) :
    (s.pushExtra subtree).position = s.position + subtree.size := rfl

/-! ## Pieces -/

@[simp] theorem subtrees_nil : subtrees [] = [] := rfl

@[simp] theorem subtrees_cons (entry : StackEntry) (rest : ParseStack) :
    subtrees (entry :: rest) = subtrees rest ++ [entry.subtree] := by
  simp [subtrees]

@[simp] theorem subtrees_append (top rest : List StackEntry) : subtrees (top ++ rest) = subtrees rest ++ subtrees top := by
  simp [subtrees]

@[simp] theorem subtrees_push (s : ParseStack) (state : StateId) (subtree : Subtree) :
    (s.push state subtree).subtrees = s.subtrees ++ [subtree] := subtrees_cons _ _

@[simp] theorem subtrees_pushExtras (s : ParseStack) (extras : List Subtree) :
    (s.pushExtras extras).subtrees = s.subtrees ++ extras := by
  induction extras generalizing s with
  | nil => simp [pushExtras]
  | cons extra rest ih =>
    rw [pushExtras, List.foldl_cons, ← pushExtras, ih, pushExtra, subtrees_push, List.append_assoc, List.singleton_append]

theorem mem_subtrees {subtree : Subtree} : subtree ∈ s.subtrees ↔ ∃ entry ∈ s, entry.subtree = subtree := by
  simp [subtrees]

/-- The extras at the top, and what is below them. -/
theorem popExtras_eq (s : ParseStack) : ∃ top, s = top ++ s.popExtras.2 ∧ s.popExtras.1 = subtrees top ∧
    ∀ entry ∈ top, entry.subtree.isExtra = true :=
  ⟨s.takeWhile (·.subtree.isExtra), List.takeWhile_append_dropWhile.symm, rfl,
    fun _ h => List.mem_takeWhile_imp (p := fun entry : StackEntry => entry.subtree.isExtra) h⟩

theorem splitStructural_append (count : Nat) (s : ParseStack) :
    (splitStructural count s).1 ++ (splitStructural count s).2 = s := by
  fun_induction splitStructural count s with
  | case1 => rfl
  | case2 => rfl
  | case3 count entry rest taken rest' hSplit ih =>
    rw [hSplit] at ih
    rw [List.cons_append, ih]

theorem popStructural_eq (s : ParseStack) (count : Nat) :
    ∃ top, s = top ++ (s.popStructural count).2 ∧ (s.popStructural count).1 = subtrees top :=
  ⟨(splitStructural count s).1, (splitStructural_append count s).symm, rfl⟩

/-! ## Positions -/

/-- Every entry ends as far behind the one below it as it is long. -/
inductive Placed : ParseStack → Prop
  | nil : Placed []
  | cons {entry : StackEntry} {rest : ParseStack} : Placed rest → entry.position = rest.position + entry.subtree.size → Placed (entry :: rest)

theorem Placed.push (h : s.Placed) (state : StateId) (subtree : Subtree) : (s.push state subtree).Placed := .cons h rfl

theorem Placed.pushExtras (h : s.Placed) (extras : List Subtree) : (s.pushExtras extras).Placed := by
  induction extras generalizing s with
  | nil => exact h
  | cons extra _ ih => exact ih (h.push _ extra)

theorem Placed.of_append {top : List StackEntry} (h : Placed (top ++ s)) : s.Placed := by
  induction top with
  | nil => exact h
  | cons _ _ ih =>
    cases h with
    | cons h _ => exact ih h

/-- A stack reaches as far as all that is on it. -/
theorem Placed.position_eq (h : s.Placed) : s.position = totalOf size s.subtrees := by
  induction h with
  | nil => rfl
  | cons _ hPosition ih => simp [position, ← ih, hPosition, Nat.add_comm]

end ParseStack
end Reparse
