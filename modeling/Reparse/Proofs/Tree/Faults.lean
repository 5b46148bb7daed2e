import Reparse.Proofs.Tree.Changes
import Reparse.Proofs.Tree.Views
import Reparse.Tree.Problems
/-!
# Errors and their reports

A node is faulty if it is an error or a missing token. The flag that a node records tells whether it or one below it is
faulty, in every tree that is parsed and however the tree is edited. The search for problems relies on the flag to leave out
what has none, and so reports all outermost faulty nodes.
-/
namespace Reparse

namespace Subtree

variable {s d : Subtree} {start : Nat} {path : List Nat} {place : Nat × Subtree}

/-- A node is flagged if it is faulty or a child is flagged. Errors have the symbol for them, and nothing is below a missing
token. -/
structure Flagged (info : NodeInfo) (children : List Subtree) : Prop where
  placed : info.offsets.length = children.length
  flag : info.hasError = (info.error || info.missing || children.any hasError)
  symbol : info.error = true → info.symbol = .error
  error : children ≠ [] → info.symbol = .error → info.error = true
  missing : info.missing = true → children = []

theorem lasting_flagged (l : Language) : Lasting l Flagged where
  token _ _ _ _ _ _ _ := ⟨rfl, rfl, nofun, fun h => absurd rfl h, nofun⟩
  skipped _ _ _ _ _ := ⟨rfl, rfl, fun _ => rfl, fun h => absurd rfl h, nofun⟩
  absent _ _ _ _ := ⟨rfl, rfl, nofun, fun h => absurd rfl h, fun _ => rfl⟩
  parent _ symbol _ _ _ _ := by
    refine ⟨by simp [ofChildren, length_runningSums], ?_, fun h => ?_, fun _ h => ?_, nofun⟩
    · simp [ofChildren]
    · exact beq_iff_eq.mp h
    · exact beq_iff_eq.mpr h
  changed _ _ _ _ _ h := ⟨h.placed, h.flag, h.symbol, h.error, h.missing⟩
  extra _ _ _ _ _ _ h := ⟨h.placed, h.flag, h.symbol, h.error, h.missing⟩

theorem flagged_edited : KeptByEdits Flagged := by
  intro info children e id h
  have hRetains := retains_editedAmong e false id h.placed
  have hNil : (editedAmong e false id info.offsets children).1 = [] ↔ children = [] := by
    rw [← List.length_eq_zero_iff, hRetains.length_eq, List.length_eq_zero_iff]
  have hBelow : (editedAmong e false id info.offsets children).1.any hasError = children.any hasError :=
    congrArg Digest.hasError (digestOf_retained hRetains)
  rw [edited]
  constructor
  · simp [rebuilt, length_runningSums]
  · exact h.flag.trans (congrArg (info.error || info.missing || ·) hBelow.symm)
  · exact h.symbol
  · exact fun hNonempty => h.error (mt hNil.mpr hNonempty)
  · exact fun hMissing => hNil.mpr (h.missing hMissing)

mutual

/-- The outermost faulty nodes with their paths and places, in the order of the text. -/
def faults (start : Nat) : Subtree → List (List Nat × Nat × Subtree)
  | node info children =>
    if info.error || info.missing then [([], start, node info children)] else faultsAmong start 0 info.offsets children

/-- The faults of children in a row, the first of which is the `i`th one. -/
def faultsAmong (start i : Nat) : List Nat → List Subtree → List (List Nat × Nat × Subtree)
  | offset :: offsets, c :: rest =>
    (faults (start + offset) c).map (fun fault => (i :: fault.1, fault.2)) ++ faultsAmong start (i + 1) offsets rest
  | _, _ => []

end

end Subtree

namespace Tree

open Subtree

variable {t : Tree}

theorem Obtained.flagged (h : t.Obtained) : t.root.All Flagged := by
  induction h with
  | @parsed σ p host input old next limit parsed _ _ hParse ih =>
    exact Parser.parse_all (lasting_flagged _) (fun tree hMem _ => ih tree hMem) hParse
  | edited e id _ ih => exact all_edited flagged_edited _ id _ ih

end Tree
end Reparse
